import Distlib.Lib.TomlLines

/-!
# Documents

A document is its headers with the lines below each: comments, blank lines and
settings, a setting with the value it is meant to have. Read as it is written, it
is the table that was meant (`read_document`).

And it is read so only if each of its settings is (`reads_of_read`). The first one
that is not read as it was meant has nothing but good lines before it, so what the
reader takes for it is what the table holds; if that tells that the setting was
read as it was meant after all, there is no such setting.
-/

namespace Toml

variable {bare : Text → Option (Value × Text)}

/-- A line below a header. -/
inductive Line where
  /-- blank, or a comment -/
  | silent : Text → Line
  | setting : Pair → Line

/-- What is written of a line. -/
def Line.text : Line → Text
  | .silent text => text
  | .setting pair => pair.setting

def Line.pair? : Line → Option Pair
  | .silent _ => none
  | .setting pair => some pair

/-- The settings among some lines. -/
def settings (body : List Line) : List Pair := body.filterMap Line.pair?

/-- What some lines are meant to make of the table they are in. -/
def meant (body : List Line) : Entries := (settings body).map fun pair => (pair.key, pair.value)

/-- Lines that say nothing. -/
def comments (lines : List Text) : List Line := lines.map Line.silent

/-- Headers, with the lines below each. -/
abbrev Document := List (Text × List Line)

def Document.lines (document : Document) : List Text :=
  document.flatMap fun named => headed named.1 :: named.2.map Line.text

/-- The table that was meant. -/
def Document.sections (document : Document) : Sections :=
  document.map fun named => (named.1, meant named.2)

/-- What a line of a document looks like. -/
def Line.Tidy : Line → Prop
  | .silent text => isSilent text = true
  | .setting pair => BareKey pair.key ∧ Opens pair.text

/-- What a document looks like: no header and no key under it is there twice. -/
structure Document.Tidy (document : Document) : Prop where
  headers : ∀ named ∈ document, BareKey named.1
  lines : ∀ named ∈ document, ∀ line ∈ named.2, line.Tidy
  names : (document.map Prod.fst).Nodup
  keys : ∀ named ∈ document, ((settings named.2).map Pair.key).Nodup

/-- A line is read as it was meant. -/
def Line.Reads (bare : Text → Option (Value × Text)) : Line → Prop
  | .silent _ => True
  | .setting pair => ReadsAs bare pair.text pair.value

theorem settings_append (body more : List Line) :
    settings (body ++ more) = settings body ++ settings more := List.filterMap_append

theorem settings_comments (lines : List Text) : settings (comments lines) = [] := by
  induction lines with
  | nil => rfl
  | cons line lines ih => exact ih

theorem meant_append (body more : List Line) : meant (body ++ more) = meant body ++ meant more := by
  rw [meant, settings_append, List.map_append]
  rfl

theorem meant_comments (lines : List Text) : meant (comments lines) = [] := by
  rw [meant, settings_comments]
  rfl

/-! ## A document whose settings are read -/

theorem leads_line {line : Line} (htidy : line.Tidy) (hreads : line.Reads bare) :
    Leads bare [line.text] ((meant [line]).map fun entry => .assign [entry.1] entry.2) := by
  cases line with
  | silent text =>
    exact leads_silent (List.all_eq_true.mpr fun _ hmem => List.mem_singleton.mp hmem ▸ htidy)
  | setting pair => exact leads_setting htidy.1 hreads

theorem leads_body {body : List Line} (htidy : ∀ line ∈ body, line.Tidy)
    (hreads : ∀ line ∈ body, line.Reads bare) :
    Leads bare (body.map Line.text) ((meant body).map fun entry => .assign [entry.1] entry.2) := by
  induction body with
  | nil => exact leads_nil
  | cons line body ih =>
    rw [List.forall_mem_cons] at htidy hreads
    have happend := (leads_line htidy.1 hreads.1).append (ih htidy.2 hreads.2)
    rw [← List.map_append, meant, meant, ← List.map_append, ← settings_append] at happend
    exact happend

theorem leads_document {document : Document} (headers : ∀ named ∈ document, BareKey named.1)
    (htidy : ∀ named ∈ document, ∀ line ∈ named.2, line.Tidy)
    (hreads : ∀ named ∈ document, ∀ line ∈ named.2, line.Reads bare) :
    Leads bare document.lines document.sections.statements := by
  induction document with
  | nil => exact leads_nil
  | cons named document ih =>
    rw [List.forall_mem_cons] at headers htidy hreads
    exact ((leads_header headers.1).append (leads_body htidy.1 hreads.1)).append
      (ih headers.2 htidy.2 hreads.2)

/-- **A document that is read as it was meant.** -/
theorem read_document {front : List Text} {document : Document}
    (hfront : front.all isSilent = true) (htidy : document.Tidy)
    (hreads : ∀ named ∈ document, ∀ line ∈ named.2, line.Reads bare) :
    read bare (inLines (front ++ document.lines)) = some document.sections.table := by
  refine read_of_leads ((leads_silent hfront).append
    (leads_document htidy.headers htidy.lines hreads)) ?_ ?_
  · rw [Document.sections, List.map_map]
    exact htidy.names
  · intro named hmem
    obtain ⟨named, hnamed, rfl⟩ := List.mem_map.mp hmem
    have hkeys := htidy.keys named hnamed
    rwa [meant, List.map_map]

/-! ## A document that is read -/

/-- What a table holds for a setting tells whether it was read as it was meant. -/
def Line.Told (bare : Text → Option (Value × Text)) (root : Entries) (name : Text) : Line → Prop
  | .silent _ => True
  | .setting pair =>
    Tells bare pair.text (fun v => v.settled = true → find [name, pair.key] root = some v)
      (ReadsAs bare pair.text pair.value)

/-- What follows a line end that is not the last. -/
theorem follows_line {line rest : Text}
    (h : ∀ c ∈ line.head?, c ≠ '"' ∧ c ≠ '\\' ∧ isControl c = false) :
    Follows ('\n' :: (line ++ '\n' :: rest)) := by
  cases line with
  | nil => exact ⟨['\n', '\n'], rest, rfl, by decide, by decide, by decide⟩
  | cons c line =>
    refine ⟨['\n', c], line ++ '\n' :: rest, rfl, List.cons_ne_nil _ _, by simp, ?_⟩
    obtain ⟨hquote, hslash, hcontrol⟩ := h c rfl
    exact raw_cons.mpr ⟨by decide, raw_cons.mpr ⟨⟨hquote, hslash, .inr hcontrol⟩, by decide⟩⟩

theorem follows_tidy {line : Line} {rest : Text} (h : line.Tidy) :
    Follows ('\n' :: (line.text ++ '\n' :: rest)) := by
  refine follows_line fun c hc => ?_
  cases line with
  | silent text =>
    obtain ⟨tail, rfl⟩ : ∃ tail, text = c :: tail := List.head?_eq_some_iff.mp hc
    have hcomment : (c == '#') = true := (Bool.and_eq_true_iff.mp h).1
    obtain rfl := eq_of_beq hcomment
    decide
  | setting pair =>
    obtain ⟨d, k, hk⟩ := List.exists_cons_of_ne_nil h.1.1
    have hd : isBare d = true := List.all_eq_true.mp h.1.2 d (hk ▸ List.mem_cons_self ..)
    have htext : (Line.setting pair).text.head? = some d := by
      rw [Line.text, Pair.setting, setting, hk]
      rfl
    obtain rfl : d = c := Option.some.inj (htext.symm.trans hc)
    exact plain_of_bare hd

/-- The first of some things that does not hold, and what is before it. -/
theorem exists_first {α : Type} {P : α → Prop} {l : List α} (h : ¬ ∀ a ∈ l, P a) :
    ∃ before a after, l = before ++ a :: after ∧ (∀ b ∈ before, P b) ∧ ¬ P a := by
  induction l with
  | nil => exact absurd (List.forall_mem_nil _) h
  | cons a l ih =>
    by_cases ha : P a
    · obtain ⟨before, b, after, rfl, hbefore, hb⟩ :=
        ih fun hl => h (List.forall_mem_cons.mpr ⟨ha, hl⟩)
      exact ⟨a :: before, b, after, rfl, List.forall_mem_cons.mpr ⟨ha, hbefore⟩, hb⟩
    · exact ⟨[], a, l, rfl, List.forall_mem_nil _, ha⟩

/-- The value that is taken for a setting, where all before it are read as they were meant. -/
theorem find_of_document {front : List Text} {done more : Document} {name : Text}
    {before after : List Line} {pair : Pair} {rest : Text} {root : Entries}
    (hfront : front.all isSilent = true)
    (htidy : Document.Tidy (done ++ (name, before ++ .setting pair :: after) :: more))
    (hdone : ∀ named ∈ done, ∀ line ∈ named.2, line.Reads bare)
    (hbefore : ∀ line ∈ before, line.Reads bare)
    (hread : read bare (inLines (front ++ done.lines ++ headed name :: before.map Line.text) ++
      (pair.setting ++ rest)) = some root) :
    ∃ n v left, 4 * (pair.text ++ rest).length < n ∧
      value bare n (pair.text ++ rest) = some (v, left) ∧
      (v.settled = true → find [name, pair.key] root = some v) := by
  obtain ⟨headers, hlines, hnames, hkeys⟩ := htidy
  rw [List.forall_mem_append, List.forall_mem_cons] at headers hlines hkeys
  obtain ⟨hbody, hrest⟩ := List.forall_mem_append.mp hlines.2.1
  obtain ⟨hpair, hopens⟩ := (List.forall_mem_cons.mp hrest).1
  have hleads : Leads bare (front ++ done.lines ++ headed name :: before.map Line.text)
      (done.sections.statements ++
        .header [name] :: (meant before).map fun entry => .assign [entry.1] entry.2) :=
    ((leads_silent hfront).append (leads_document headers.1 hlines.1 hdone)).append
      ((leads_header headers.2.1).append (leads_body hbody hbefore))
  have hbeforeKeys : ((meant before).map Prod.fst ++ [pair.key]).Nodup := by
    have hall := hkeys.2.1
    have hpairs : settings (.setting pair :: after) = pair :: settings after := rfl
    rw [settings_append, hpairs, List.map_append, List.map_cons, ← List.singleton_append, ← List.append_assoc] at hall
    rw [meant, List.map_map]
    exact hall.of_append_left
  refine find_of_read hleads hpair hopens ?_ ?_ hbeforeKeys hread
  · rw [List.map_append, List.map_cons, ← List.singleton_append, ← List.append_assoc] at hnames
    rw [Document.sections, List.map_map]
    exact hnames.of_append_left
  · intro named hmem
    obtain ⟨named, hnamed, rfl⟩ := List.mem_map.mp hmem
    have hall := hkeys.1 named hnamed
    rwa [meant, List.map_map]

/-- **A document that is read** is read as it was meant, if every value that the table
holds tells so of its setting. The last line is one that is read in any case: there is
nothing behind it to tell. -/
theorem reads_of_read {front : List Text} {document : Document} {root : Entries}
    (hfront : front.all isSilent = true) (htidy : document.Tidy)
    (hlast : ∃ done name before line, document = done ++ [(name, before ++ [line])] ∧
      line.Reads bare)
    (hread : read bare (inLines (front ++ document.lines)) = some root)
    (htells : ∀ named ∈ document, ∀ line ∈ named.2, line.Told bare root named.1) :
    ∀ named ∈ document, ∀ line ∈ named.2, line.Reads bare := by
  by_contra hnot
  obtain ⟨done, ⟨name, body⟩, more, rfl, hdone, hbody⟩ := exists_first hnot
  obtain ⟨before, line, after, rfl, hbefore, hline⟩ := exists_first hbody
  obtain ⟨pair, rfl⟩ : ∃ pair, line = .setting pair := by
    cases line with
    | silent text => exact absurd trivial hline
    | setting pair => exact ⟨pair, rfl⟩
  have htext : inLines (front ++ Document.lines (done ++ (name, before ++ .setting pair :: after)
        :: more)) =
      inLines (front ++ Document.lines done ++ headed name :: before.map Line.text) ++
        (pair.setting ++ '\n' :: inLines (after.map Line.text ++ Document.lines more)) := by
    simp [Document.lines, inLines, Line.text]
  have hnamed : (name, before ++ .setting pair :: after) ∈
      done ++ (name, before ++ .setting pair :: after) :: more :=
    List.mem_append_right _ (List.mem_cons_self ..)
  have htold : Tells bare pair.text (fun v => v.settled = true → find [name, pair.key] root = some v)
      (ReadsAs bare pair.text pair.value) :=
    htells _ hnamed _ (List.mem_append_right _ (List.mem_cons_self ..))
  have hfollows : Follows ('\n' :: inLines (after.map Line.text ++ Document.lines more)) := by
    cases after with
    | cons next after =>
      rw [List.map_cons, List.cons_append, inLines_cons]
      exact follows_tidy (htidy.lines _ hnamed next (List.mem_append_right _ (by simp)))
    | nil =>
      cases more with
      | cons named more =>
        have hlines : Document.lines (named :: more) =
            headed named.1 :: (named.2.map Line.text ++ Document.lines more) := rfl
        rw [List.map_nil, List.nil_append, hlines, inLines_cons]
        exact follows_line fun c hc => by obtain rfl := Option.some.inj hc; decide
      | nil =>
        obtain ⟨done', name', before', line, heq, hreads⟩ := hlast
        obtain ⟨-, hsame⟩ := List.append_inj' heq rfl
        obtain ⟨-, hbodies⟩ := Prod.mk.inj (List.cons.inj hsame).1
        obtain ⟨-, hlines⟩ := List.append_inj' hbodies rfl
        exact absurd ((List.cons.inj hlines).1 ▸ hreads) hline
  rw [htext] at hread
  obtain ⟨n, v, left, hn, hvalue, hfound⟩ :=
    find_of_document hfront htidy hdone hbefore hread
  exact hline (htold _ _ _ _ ⟨'\n', _, rfl, .inr (.inr (.inr rfl))⟩ hfollows hn hvalue hfound)

end Toml
