import Distlib.Lib.TomlWritten

/-!
# Texts of plain lines

A text written line by line: blank lines and comments, a header for each table,
a key and a value on a line. `Leads` says that some lines are read as some
statements, whatever follows them, so that what is known of each line adds up.

Where one line holds a string that may not be plain, what follows it is not known
to be lines any more. It can be said, though, that the value the reader takes
there is what the text gives that key, if the text is read at all
(`find_of_read`).
-/

namespace Toml

variable {bare : Text → Option (Value × Text)} {n : ℕ} {rest : Text}

/-- A text of lines. -/
def inLines (lines : List Text) : Text := lines.flatMap fun line => line ++ ['\n']

theorem inLines_append (lines more : List Text) :
    inLines (lines ++ more) = inLines lines ++ inLines more := List.flatMap_append

theorem inLines_cons (line : Text) (lines : List Text) :
    inLines (line :: lines) = line ++ '\n' :: inLines lines := by
  rw [inLines, List.flatMap_cons, List.append_assoc]
  rfl

/-- Some lines are read as some statements, whatever follows. -/
def Leads (bare : Text → Option (Value × Text)) (lines : List Text) (all : List Statement) :
    Prop :=
  ∀ n rest, 4 * (inLines lines ++ rest).length + 3 < n → ∃ m, 4 * rest.length + 3 < m ∧
    statements bare n (inLines lines ++ rest) = (statements bare m rest).map (all ++ ·)

/-- No lines say nothing. -/
theorem leads_nil : Leads bare [] [] := fun n rest hn =>
  ⟨n, hn, by cases h : statements bare n rest <;> simp [inLines, h]⟩

/-- What lines say is said one after the other, so that a text may be read in parts. -/
theorem Leads.append {lines more : List Text} {all others : List Statement}
    (h : Leads bare lines all) (h' : Leads bare more others) :
    Leads bare (lines ++ more) (all ++ others) := by
  intro n rest hn
  rw [inLines_append, List.append_assoc] at hn ⊢
  obtain ⟨m, hm, hlines⟩ := h n _ hn
  obtain ⟨k, hk, hmore⟩ := h' m rest hm
  refine ⟨k, hk, ?_⟩
  rw [hlines, hmore, Option.map_map]
  exact congrArg (fun f => Option.map f _) (funext fun tail => (List.append_assoc ..).symm)

/-- It is enough to read a line in one step. -/
theorem leads_of_step {line : Text} {all : List Statement}
    (h : ∀ n rest, 4 * (line ++ '\n' :: rest).length + 3 < n + 2 →
      statements bare (n + 2) (line ++ '\n' :: rest) =
        (statements bare (n + 1) rest).map (all ++ ·)) :
    Leads bare [line] all := by
  intro n rest hn
  rw [inLines_cons, List.append_assoc] at hn ⊢
  obtain ⟨n, rfl⟩ := Nat.exists_eq_add_of_le' (by omega : 2 ≤ n)
  refine ⟨n + 1, ?_, h n rest hn⟩
  rw [List.cons_append, List.length_append, List.length_cons] at hn
  have hrest : (inLines [] ++ rest).length = rest.length := rfl
  omega

/-! ## Lines that say nothing -/

/-- A blank line, or a comment. -/
def isSilent : Text → Bool
  | [] => true
  | c :: text => c == '#' && text.all fun c => !isControl c

/-- A comment without control characters goes to the end of its line. -/
theorem skipComment_line {text : Text} (h : text.all (fun c => !isControl c) = true) :
    skipComment (text ++ '\n' :: rest) = some rest := by
  induction text with
  | nil => rfl
  | cons c text ih =>
    rw [List.all_cons, Bool.and_eq_true, Bool.not_eq_true'] at h
    rw [List.cons_append, skipComment, newline_eq_none h.1, h.1]
    exact ih h.2

/-- A silent line is passed over with one step. -/
theorem statements_silent {line : Text} (h : isSilent line = true) :
    statements bare (n + 1) (line ++ '\n' :: rest) = statements bare n rest := by
  cases line with
  | nil => rfl
  | cons c text =>
    obtain ⟨rfl, htext⟩ : c = '#' ∧ text.all (fun c => !isControl c) = true := by
      simpa [isSilent] using h
    have hblank : skipBlanks ('#' :: text ++ '\n' :: rest) = '#' :: (text ++ '\n' :: rest) := rfl
    rw [statements, hblank]
    dsimp only
    rw [if_pos rfl, skipComment_line htext, Option.bind_some]

/-- So are any number of them. -/
theorem leads_silent {lines : List Text} (h : lines.all isSilent = true) :
    Leads bare lines [] := by
  induction lines with
  | nil => exact leads_nil
  | cons line lines ih =>
    rw [List.all_cons, Bool.and_eq_true] at h
    have hline : Leads bare [line] [] := leads_of_step fun n rest _ => by
      rw [statements_silent h.1]
      cases hrest : statements bare (n + 1) rest <;> rfl
    exact hline.append (ih h.2)

/-! ## Lines that say something -/

/-- A line that begins with a bare key is a statement, and its end is looked for behind it. -/
theorem statements_of_bare {c : Char} {tail : Text} (hc : isBare c = true) :
    statements bare (n + 1) (c :: tail) =
      (statement bare n (c :: tail)).bind fun first =>
        (lineEnd first.2).bind fun after => (statements bare n after).map (first.1 :: ·) := by
  obtain ⟨d, tail', heq, hblank, hcomment, hline, hreturn, -⟩ :=
    (opens_of_word (by rw [isWord, hc]; rfl) : Opens (c :: tail))
  obtain ⟨rfl, rfl⟩ := List.cons.inj heq
  have hskip : skipBlanks (c :: tail) = c :: tail :=
    List.dropWhile_cons_of_neg (Bool.eq_false_iff.mp hblank)
  have hnone : newline (c :: tail) = none := by
    rw [newline, if_neg hline, if_neg (fun hand => hreturn hand.1)]
  rw [statements, hskip]
  dsimp only
  rw [if_neg hcomment, hnone]

/-- A line with a key and a value, whatever the value turns out to be. -/
theorem statements_setting {k text : Text} (hk : BareKey k) (h : Opens text) :
    statements bare (n + 2) (setting k text ++ rest) =
      (value bare (n + 1) (text ++ rest)).bind fun read =>
        (lineEnd read.2).bind fun after =>
          (statements bare (n + 1) after).map (.assign [k] read.1 :: ·) := by
  have hkey : key (n + 1) (setting k text ++ rest) =
    some ([k], '=' :: ' ' :: (text ++ rest)) := key_setting hk
  obtain ⟨c, tail, hsetting⟩ : ∃ c tail, setting k text ++ rest = c :: tail ∧ isBare c = true := by
    obtain ⟨c, tail, rfl⟩ := List.exists_cons_of_ne_nil hk.1
    exact ⟨c, _, rfl, List.all_eq_true.mp hk.2 c (List.mem_cons_self ..)⟩
  rw [hsetting.1] at hkey ⊢
  have hbracket : c ≠ '[' := by
    rintro rfl
    exact absurd hsetting.2 (by decide)
  have hblank : skipBlanks (' ' :: (text ++ rest)) = text ++ rest := h.skipBlanks
  rw [statements_of_bare hsetting.2, statement, if_neg (by simp [Ne.symm hbracket]),
    if_neg (by simpa using hbracket), hkey, Option.bind_some]
  dsimp only
  rw [List.head?_cons, if_pos rfl, List.tail_cons, hblank]
  cases value bare (n + 1) (text ++ rest) <;> rfl

/-- A line with a setting says the setting. -/
theorem leads_setting {k text : Text} {v : Value} (hk : BareKey k) (h : ReadsAs bare text v) :
    Leads bare [setting k text] [.assign [k] v] := leads_of_step fun n rest hn => by
  rw [setting_append] at hn
  simp only [List.length_append, List.length_cons] at hn
  have hstops : Stops ('\n' :: rest) := ⟨'\n', rest, rfl, by simp⟩
  rw [statements_setting hk h.opens, h.reads _ _ hstops
    (by simp only [List.length_append, List.length_cons]; omega), Option.bind_some]
  rfl

/-- A header, as it is written. -/
def headed (k : Text) : Text := '[' :: (k ++ [']'])

/-- A line with a header says the header. -/
theorem leads_header {k : Text} (hk : BareKey k) : Leads bare [headed k] [.header [k]] :=
  leads_of_step fun n rest _ => by
    obtain ⟨c, k', rfl⟩ := List.exists_cons_of_ne_nil hk.1
    have hc : isBare c = true := List.all_eq_true.mp hk.2 c (List.mem_cons_self ..)
    have hopens : Opens (c :: k') := opens_of_word (by rw [isWord, hc]; rfl)
    have hbracket : c ≠ '[' := by
      rintro rfl
      exact absurd hc (by decide)
    have htext : headed (c :: k') ++ '\n' :: rest = '[' :: (c :: k' ++ ']' :: '\n' :: rest) := by
      simp [headed]
    have hkey : key (n + 1) (c :: k' ++ ']' :: '\n' :: rest) =
        some ([c :: k'], ']' :: '\n' :: rest) :=
      key_bare hk (fun d hd => by obtain rfl := Option.some.inj hd; decide) rfl (by decide)
    have hskip : skipBlanks (c :: k' ++ ']' :: '\n' :: rest) = c :: k' ++ ']' :: '\n' :: rest :=
      hopens.skipBlanks
    have hstatement : statement bare (n + 1) ('[' :: (c :: k' ++ ']' :: '\n' :: rest)) =
        some (.header [c :: k'], '\n' :: rest) := by
      rw [statement, if_neg (by simp [Ne.symm hbracket]), List.head?_cons, if_pos rfl,
        List.tail_cons, hskip, hkey]
      rfl
    have hblank : skipBlanks ('[' :: (c :: k' ++ ']' :: '\n' :: rest)) =
        '[' :: (c :: k' ++ ']' :: '\n' :: rest) := rfl
    rw [htext, statements, hblank]
    dsimp only
    rw [if_neg (by decide)]
    have hnone : newline ('[' :: (c :: k' ++ ']' :: '\n' :: rest)) = none := rfl
    rw [hnone, hstatement]
    rfl

/-! ## The whole text -/

/-- A text of lines that say something says that, with the steps its length pays for. -/
theorem statements_of_leads {lines : List Text} {all : List Statement} (h : Leads bare lines all) :
    statements bare (4 * (inLines lines).length + 4) (inLines lines) = some all := by
  obtain ⟨m, hm, hstatements⟩ := h (4 * (inLines lines).length + 4) []
    (by rw [List.append_nil]; exact Nat.lt_succ_self _)
  rw [List.append_nil] at hstatements
  obtain ⟨m, rfl⟩ := Nat.exists_eq_succ_of_ne_zero (Nat.ne_zero_of_lt hm)
  rw [hstatements]
  exact congrArg some (List.append_nil all)

/-- A text of headers and keys is read as the table they make. -/
theorem read_of_leads {lines : List Text} {sections : Sections}
    (h : Leads bare lines sections.statements) (hnames : (sections.map Prod.fst).Nodup)
    (hkeys : ∀ named ∈ sections, (named.2.map Prod.fst).Nodup) :
    read bare (inLines lines) = some sections.table := by
  obtain ⟨current, hassemble⟩ : ∃ current, assemble [] [] (sections.statements ++ []) =
      assemble current ([] ++ sections.table) [] :=
    assemble_sections (by simpa using hnames) hkeys []
  rw [List.append_nil, List.nil_append] at hassemble
  rw [read, statements_of_leads h, Option.bind_some, hassemble]
  rfl

/-- **The value that is taken for a key** is what the text gives that key, if the text is
read at all; the lines before it are known, and nothing after it is. -/
theorem find_of_read {lines : List Text} {sections : Sections} {name k text : Text}
    {pairs root : Entries}
    (h : Leads bare lines
      (sections.statements ++
        .header [name] :: pairs.map fun entry => .assign [entry.1] entry.2))
    (hk : BareKey k) (hopens : Opens text) (hnames : (sections.map Prod.fst ++ [name]).Nodup)
    (hkeys : ∀ named ∈ sections, (named.2.map Prod.fst).Nodup)
    (hpairs : (pairs.map Prod.fst ++ [k]).Nodup)
    (hread : read bare (inLines lines ++ (setting k text ++ rest)) = some root) :
    ∃ n v after, 4 * (text ++ rest).length < n ∧ value bare n (text ++ rest) = some (v, after) ∧
      (v.settled = true → find [name, k] root = some v) := by
  obtain ⟨all, hall, hread⟩ := Option.bind_eq_some_iff.mp hread
  obtain ⟨⟨last, root'⟩, hassemble, rfl⟩ := Option.map_eq_some_iff.mp hread
  obtain ⟨m, hm, hlines⟩ := h _ (setting k text ++ rest) (Nat.lt_succ_self _)
  rw [hlines] at hall
  obtain ⟨more, hmore, rfl⟩ := Option.map_eq_some_iff.mp hall
  obtain ⟨m, rfl⟩ := Nat.exists_eq_add_of_le' (by omega : 2 ≤ m)
  rw [statements_setting hk hopens] at hmore
  obtain ⟨⟨v, after⟩, hvalue, hmore⟩ := Option.bind_eq_some_iff.mp hmore
  obtain ⟨left, -, hmore⟩ := Option.bind_eq_some_iff.mp hmore
  obtain ⟨others, -, rfl⟩ := Option.map_eq_some_iff.mp hmore
  refine ⟨m + 1, v, after, ?_, hvalue, fun hv => ?_⟩
  · rw [setting_append] at hm
    simp only [List.length_append, List.length_cons] at hm ⊢
    omega
  · rw [List.append_assoc] at hassemble
    obtain ⟨current, hsections⟩ : ∃ current, assemble [] [] (sections.statements ++
          ((.header [name] :: pairs.map fun entry => .assign [entry.1] entry.2) ++
            .assign [k] v :: others)) =
        assemble current ([] ++ sections.table)
          ((.header [name] :: pairs.map fun entry => .assign [entry.1] entry.2) ++
            .assign [k] v :: others) :=
      assemble_sections (by simpa using (List.nodup_append.mp hnames).1) hkeys []
    have hname : sections.table.lookup name = none := lookup_eq_none_of_notMem fun hmem => by
      have hsame : sections.table.map Prod.fst = sections.map Prod.fst := by
        simp [Sections.table]
      exact (List.disjoint_of_nodup_append hnames) (hsame ▸ hmem) (List.mem_singleton_self _)
    have hsection : assemble current sections.table (.header [name] ::
          ((pairs ++ [(k, v)]).map (fun entry => .assign [entry.1] entry.2) ++ others)) =
        assemble [name] (sections.table ++ [(name, .table .header (pairs ++ [(k, v)]))]) others :=
      assemble_section hname (by simpa using hpairs)
    have hsplit : (Statement.header [name] ::
          pairs.map fun entry => Statement.assign [entry.1] entry.2) ++ .assign [k] v :: others =
        .header [name] :: ((pairs ++ [(k, v)]).map
          (fun entry => Statement.assign [entry.1] entry.2) ++ others) := by simp
    rw [hsections, hsplit, List.nil_append, hsection] at hassemble
    refine assemble_keeps hassemble [name, k] v hv ?_
    have hkey : pairs.lookup k = none := lookup_eq_none_of_notMem fun hmem =>
      (List.disjoint_of_nodup_append hpairs) hmem (List.mem_singleton_self _)
    simp [find, lookup_append, hname, hkey, Value.inside]

end Toml
