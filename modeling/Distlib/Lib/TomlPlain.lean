import Distlib.Lib.Toml

/-!
# What is written between quotes as it is

A program that writes TOML may put a string between quotes without escaping it.
If the string is plain, no quote, no backslash and no control character but the
tab, it is read back. If it is not, what the reader takes there is never the
string: this is `plain_of_quoted`, and it holds whatever the string is, also
where it runs on past its closing quote, into the rest of the text.

Where the string has one line the reason is the first quote. It is read, at the
latest, where the string was to be closed; if it closes the string then nothing
before it was escaped, and if it is escaped then it comes out earlier than it
stands, where the string itself has none.

A string that starts with two quotes is read as one of several lines, and has
quotes of its own. There the reason is the first place where a quote is followed
by what follows the closing one (`Raw`): it comes out earlier than it stands
too, by the two quotes that were taken as a sign.
-/

namespace Toml

/-- What may stand between quotes as it is. -/
def Plain (s : Text) : Prop := ∀ c ∈ s, c ≠ '"' ∧ c ≠ '\\' ∧ isControl c = false

-- named, since otherwise every character there is would be tried
instance (s : Text) : Decidable (Plain s) :=
  List.decidableBAll (fun c => c ≠ '"' ∧ c ≠ '\\' ∧ isControl c = false) s

theorem plain_cons {c : Char} {s : Text} :
    Plain (c :: s) ↔ (c ≠ '"' ∧ c ≠ '\\' ∧ isControl c = false) ∧ Plain s :=
  List.forall_mem_cons

/-- A string is plain if its parts are. -/
theorem plain_append {s t : Text} : Plain (s ++ t) ↔ Plain s ∧ Plain t :=
  List.forall_mem_append

/-- What a bare key may have in it may stand between quotes too. -/
theorem plain_of_bare {c : Char} (h : isBare c = true) :
    c ≠ '"' ∧ c ≠ '\\' ∧ isControl c = false := by
  have hnot : ∀ d, isBare d = false → c ≠ d := by
    rintro d hd rfl
    rw [h] at hd
    cases hd
  have hcontrols : ∀ n < 128, isControl (Char.ofNat n) = true → isBare (Char.ofNat n) = false := by
    decide
  refine ⟨hnot _ (by decide), hnot _ (by decide), ?_⟩
  by_contra hcontrol
  rw [Bool.not_eq_false] at hcontrol
  have hsmall : c.toNat < 128 := by
    simp only [isControl, Bool.or_eq_true, Bool.and_eq_true, decide_eq_true_iff, beq_iff_eq]
      at hcontrol
    omega
  have hword := hcontrols c.toNat hsmall (by rwa [Char.ofNat_toNat])
  rw [Char.ofNat_toNat, h] at hword
  cases hword

variable {n : ℕ} {multi : Bool} {a b e s v w X rest : Text}

theorem piece_quote : piece '"' false ('"' :: rest) = some (.close [] rest) := by
  simp [piece]

/-- A plain character stands for itself. -/
theorem piece_plain {c : Char} (hc : c ≠ '"' ∧ c ≠ '\\' ∧ isControl c = false) :
    piece '"' false (c :: rest) = some (.emit [c] rest) := by
  simp [piece, hc.1, hc.2.1, hc.2.2]

/-- A plain string is read as it is. -/
theorem body_plain (h : Plain s) (hn : s.length < n) :
    body '"' false n (s ++ '"' :: rest) = some (s, rest) := by
  induction s generalizing n with
  | nil =>
    obtain ⟨n, rfl⟩ := Nat.exists_eq_succ_of_ne_zero (Nat.ne_zero_of_lt hn)
    rw [List.nil_append, body, piece_quote]
  | cons c s ih =>
    obtain ⟨n, rfl⟩ := Nat.exists_eq_succ_of_ne_zero (Nat.ne_zero_of_lt hn)
    rw [List.cons_append, body, piece_plain (plain_cons.mp h).1]
    dsimp only
    rw [ih (plain_cons.mp h).2 (Nat.lt_of_succ_lt_succ hn)]
    rfl

/-! ## What an escape takes off a text

Each of these reads the text in front of a quote, or the quote with it, and
says what is left in front of the quote. -/

/-- A line end that is read before a quote leaves the quote where it is. -/
theorem newline_before (h : newline (a ++ '"' :: X) = some rest) :
    ∃ left, left <:+ a ∧ left.length < a.length ∧ rest = left ++ '"' :: X := by
  cases a with
  | nil => simp [newline] at h
  | cons c a =>
    rw [List.cons_append, newline] at h
    split_ifs at h with hline hreturn
    · exact ⟨a, List.suffix_cons c a, Nat.lt_succ_self _, (Option.some.inj h).symm⟩
    · cases a with
      | nil => simp at hreturn
      | cons d a =>
        exact ⟨a, (List.suffix_cons d a).trans (List.suffix_cons c _),
          by simp only [List.length_cons]; omega, (Option.some.inj h).symm⟩

/-- Blanks are passed over no further than a quote. -/
theorem skipBlanks_before : skipBlanks (a ++ '"' :: X) = skipBlanks a ++ '"' :: X := by
  induction a with
  | nil => rfl
  | cons c a ih =>
    simp only [skipBlanks, List.cons_append, List.dropWhile_cons] at ih ⊢
    split_ifs with hblank
    · exact ih
    · rfl

/-- Nor are blanks and line ends together. -/
theorem trim_before : trim (a ++ '"' :: X) = trim a ++ '"' :: X := by
  induction a with
  | nil => simp [trim, isBlank]
  | cons c a ih =>
    have hhead : ((a ++ '"' :: X).head? == some '\n') = (a.head? == some '\n') := by
      cases a <;> simp
    rw [List.cons_append, trim, trim, hhead]
    split_ifs with hspace
    · exact ih
    · rfl

/-- What is left of passing over is the rest of the text. -/
theorem trim_suffix : ∀ a : Text, trim a <:+ a
  | [] => List.suffix_rfl
  | c :: a => by
    rw [trim]
    split_ifs
    · exact (trim_suffix a).trans (List.suffix_cons c a)
    · exact List.suffix_rfl

/-- The digits of an escape are read no further than a quote. -/
theorem hexDigits_before {len m digits : ℕ} (h : hexDigits len m (a ++ '"' :: X) = some (digits, rest)) :
    ∃ left, left <:+ a ∧ rest = left ++ '"' :: X := by
  induction len generalizing m a with
  | zero => exact ⟨a, List.suffix_rfl, by simpa [hexDigits] using (Prod.ext_iff.mp (Option.some.inj h)).2.symm⟩
  | succ len ih =>
    cases a with
    | nil => simp [hexDigits, hexDigit?] at h
    | cons c a =>
      rw [List.cons_append, hexDigits, Option.bind_eq_some_iff] at h
      obtain ⟨digit, -, h⟩ := h
      obtain ⟨left, hleft, hrest⟩ := ih h
      exact ⟨left, hleft.trans (List.suffix_cons c a), hrest⟩

/-- An escape stands for one character, whatever its digits are. -/
theorem code_before {len : ℕ} (h : code len (a ++ '"' :: X) = some (e, rest)) :
    ∃ left, left <:+ a ∧ rest = left ++ '"' :: X ∧ e.length = 1 := by
  rw [code, Option.bind_eq_some_iff] at h
  obtain ⟨⟨digits, after⟩, hread, h⟩ := h
  split_ifs at h
  obtain ⟨left, hleft, hrest⟩ := hexDigits_before hread
  obtain ⟨rfl, rfl⟩ := Prod.mk.inj (Option.some.inj h)
  exact ⟨left, hleft, hrest, rfl⟩

/-- A line end behind a backslash goes with all blanks after it, and is nothing. -/
theorem fold_before (h : (newline (skipBlanks (a ++ '"' :: X))).map (fun after => ([], trim after))
      = some (e, rest)) :
    ∃ left, left <:+ a ∧ left.length < a.length ∧ rest = left ++ '"' :: X ∧ e.length ≤ 1 := by
  rw [skipBlanks_before, Option.map_eq_some_iff] at h
  obtain ⟨after, hline, h⟩ := h
  obtain ⟨left, hleft, hshorter, rfl⟩ := newline_before hline
  obtain ⟨rfl, rfl⟩ := Prod.mk.inj h
  have hblanks : skipBlanks a <:+ a := List.dropWhile_suffix _
  refine ⟨trim left, ((trim_suffix left).trans hleft).trans hblanks, ?_, trim_before, by simp⟩
  exact ((trim_suffix left).length_le.trans_lt hshorter).trans_le hblanks.length_le

/-- What is escaped is the quote, or lies in front of it. -/
theorem escape_before (h : escape multi (a ++ '"' :: X) = some (e, rest)) :
    (a = [] ∧ e = ['"'] ∧ rest = X) ∨
      ∃ left, left <:+ a ∧ left.length < a.length ∧ rest = left ++ '"' :: X ∧ e.length ≤ 1 := by
  cases a with
  | nil =>
    left
    obtain ⟨rfl, rfl⟩ : ['"'] = e ∧ X = rest := by simpa [escape] using h
    exact ⟨rfl, rfl, rfl⟩
  | cons c a =>
    right
    have hone : ∀ out : Text, out.length = 1 → some (out, a ++ '"' :: X) = some (e, rest) →
        ∃ left, left <:+ c :: a ∧ left.length < (c :: a).length ∧ rest = left ++ '"' :: X ∧
          e.length ≤ 1 := by
      rintro out hout heq
      obtain ⟨rfl, rfl⟩ := Prod.mk.inj (Option.some.inj heq)
      exact ⟨a, List.suffix_cons c a, Nat.lt_succ_self _, rfl, hout.le⟩
    have hcode : ∀ len, code len (a ++ '"' :: X) = some (e, rest) →
        ∃ left, left <:+ c :: a ∧ left.length < (c :: a).length ∧ rest = left ++ '"' :: X ∧
          e.length ≤ 1 := by
      intro len hread
      obtain ⟨left, hleft, hrest, hlength⟩ := code_before hread
      exact ⟨left, hleft.trans (List.suffix_cons c a), Nat.lt_succ_of_le hleft.length_le, hrest,
        hlength.le⟩
    rw [List.cons_append, escape] at h
    split_ifs at h
    all_goals first
      | exact hone _ rfl h
      | exact hcode _ h
      | exact fold_before (List.cons_append ▸ h)

/-! ## Strings of one line -/

/-- **Up to its first quote** a string of one line is read as it is, or comes out shorter,
or a quote comes out of it too early. -/
theorem body_short (hquote : '"' ∉ a) (h : body '"' false n (a ++ '"' :: X) = some (v, rest)) :
    (v = a ∧ Plain a) ∨ v.length < a.length ∨
      ∃ e v', v = e ++ '"' :: v' ∧ e.length < a.length := by
  induction n generalizing a v with
  | zero => cases h
  | succ n ih =>
    cases a with
    | nil =>
      rw [List.nil_append, body, piece_quote] at h
      obtain ⟨rfl, -⟩ := Prod.mk.inj (Option.some.inj h)
      exact .inl ⟨rfl, List.forall_mem_nil _⟩
    | cons c a =>
      obtain ⟨hc, ha⟩ := not_or.mp (mt List.mem_cons.mpr hquote)
      rw [List.cons_append, body, piece, if_neg (Ne.symm hc)] at h
      by_cases hescape : c = '\\'
      · rw [if_pos ⟨hescape, rfl⟩] at h
        rcases hread : escape false (a ++ '"' :: X) with _ | ⟨out, after⟩
        · rw [hread] at h
          cases h
        rw [hread, Option.map_some] at h
        obtain ⟨⟨tail, left⟩, hbody, heq⟩ := Option.map_eq_some_iff.mp h
        obtain ⟨rfl, rfl⟩ := Prod.mk.inj heq
        rcases escape_before hread with ⟨rfl, rfl, rfl⟩ | ⟨left, hleft, hshorter, rfl, hout⟩
        · exact .inr (.inr ⟨[], tail, rfl, Nat.zero_lt_one⟩)
        · refine .inr ?_
          rcases ih (fun hmem => ha (hleft.subset hmem)) hbody with
            ⟨rfl, -⟩ | hless | ⟨e, v', rfl, hless⟩
          · exact .inl (by simp only [List.length_append, List.length_cons]; omega)
          · exact .inl (by simp only [List.length_append, List.length_cons]; omega)
          · exact .inr ⟨out ++ e, v', by rw [List.append_assoc],
              by simp only [List.length_append, List.length_cons]; omega⟩
      · rw [if_neg (fun hand => hescape hand.1), if_neg (fun hand => by cases hand.1)] at h
        split_ifs at h with hcontrol
        obtain ⟨⟨tail, left⟩, hbody, heq⟩ := Option.map_eq_some_iff.mp h
        obtain ⟨rfl, rfl⟩ := Prod.mk.inj heq
        rcases ih ha hbody with ⟨rfl, hplain⟩ | hless | ⟨e, v', rfl, hless⟩
        · exact .inl ⟨rfl, plain_cons.mpr
            ⟨⟨Ne.symm hc, hescape, Bool.eq_false_of_not_eq_true hcontrol⟩, hplain⟩⟩
        · exact .inr (.inl (Nat.succ_lt_succ hless))
        · exact .inr (.inr ⟨c :: e, v', rfl, Nat.succ_lt_succ hless⟩)

/-! ## Strings of several lines -/

/-- Text that stands for itself in a string of several lines. -/
def Raw (w : Text) : Prop :=
  ∀ c ∈ w, c ≠ '"' ∧ c ≠ '\\' ∧ (c = '\n' ∨ isControl c = false)

instance (w : Text) : Decidable (Raw w) :=
  List.decidableBAll (fun c => c ≠ '"' ∧ c ≠ '\\' ∧ (c = '\n' ∨ isControl c = false)) w

/-- The text between three quotes is raw if its first character is, and the rest. -/
theorem raw_cons {c : Char} : Raw (c :: w) ↔
    (c ≠ '"' ∧ c ≠ '\\' ∧ (c = '\n' ∨ isControl c = false)) ∧ Raw w :=
  List.forall_mem_cons

/-- A line end is a control character, so no other character begins one. -/
theorem newline_eq_none {c : Char} (hc : isControl c = false) : newline (c :: rest) = none := by
  have hline : c ≠ '\n' := by rintro rfl; exact absurd hc (by decide)
  have hreturn : c ≠ '\r' := by rintro rfl; exact absurd hc (by decide)
  rw [newline, if_neg hline, if_neg (fun hand => hreturn hand.1)]

/-- Between three quotes a character that is no quote and no backslash stands for itself. -/
theorem piece_raw {c : Char} (hc : c ≠ '"' ∧ c ≠ '\\' ∧ (c = '\n' ∨ isControl c = false)) :
    piece '"' true (c :: rest) = some (.emit [c] rest) := by
  obtain ⟨hquote, hescape, rfl | hcontrol⟩ := hc
  · simp [piece, newline]
  · simp [piece, hquote, hescape, newline_eq_none hcontrol, hcontrol]

/-- What is read between three quotes begins with the raw text there. -/
theorem body_raw (hw : Raw w) (h : body '"' true n (w ++ b) = some (v, rest)) :
    ∃ v', v = w ++ v' := by
  induction w generalizing n v with
  | nil => exact ⟨v, rfl⟩
  | cons c w ih =>
    obtain ⟨hc, hw⟩ := raw_cons.mp hw
    cases n with
    | zero => cases h
    | succ n =>
      rw [List.cons_append, body, piece_raw hc] at h
      obtain ⟨⟨tail, left⟩, hbody, heq⟩ := Option.map_eq_some_iff.mp h
      obtain ⟨rfl, rfl⟩ := Prod.mk.inj heq
      obtain ⟨v', rfl⟩ := ih hw hbody
      exact ⟨v', rfl⟩

/-- A run of quotes ends where something else than a quote follows one. -/
theorem run_le (hw : w ≠ []) (hraw : Raw w) :
    ((a ++ '"' :: (w ++ b)).takeWhile (· == '"')).length ≤ a.length + 1 := by
  induction a with
  | nil =>
    obtain ⟨c, w, rfl⟩ := List.exists_cons_of_ne_nil hw
    simp [(raw_cons.mp hraw).1.1]
  | cons c a ih =>
    rw [List.cons_append, List.takeWhile_cons]
    split_ifs
    · exact Nat.succ_le_succ ih
    · exact Nat.zero_le _

/-- The next piece of a string of several lines, in front of a quote that something else
follows: the end of it, or that quote, or something that leaves less in front of it. -/
theorem piece_before {p : Piece} (hw : w ≠ []) (hraw : Raw w)
    (h : piece '"' true (a ++ '"' :: (w ++ b)) = some p) :
    (∃ extra after, p = .close extra after ∧ extra.length ≤ a.length) ∨
      p = .emit ['"'] (w ++ b) ∨
      ∃ out left, p = .emit out (left ++ '"' :: (w ++ b)) ∧ left.length < a.length ∧
        out.length ≤ 1 := by
  have hrun : ((a ++ '"' :: (w ++ b)).takeWhile (· == '"')).length ≤ a.length + 1 :=
    run_le hw hraw
  cases a with
  | nil =>
    rw [List.nil_append] at h hrun
    rw [piece, if_pos rfl, if_pos rfl, quotes, if_pos (hrun.trans_lt (by decide))] at h
    exact .inr (.inl (Option.some.inj h).symm)
  | cons c a =>
    have hnext : ∀ out : Text, out.length = 1 →
        some (.emit out (a ++ '"' :: (w ++ b))) = some p →
        ∃ out left, p = .emit out (left ++ '"' :: (w ++ b)) ∧ left.length < (c :: a).length ∧
          out.length ≤ 1 := fun out hout heq =>
      ⟨out, a, (Option.some.inj heq).symm, Nat.lt_succ_self _, hout.le⟩
    rw [List.cons_append, piece] at h
    by_cases hquote : c = '"'
    · rw [if_pos hquote, if_pos rfl, quotes] at h
      split_ifs at h with hfew
      · exact .inr (.inr (hnext ['"'] rfl h))
      · refine .inl ⟨_, _, (Option.some.inj h).symm, ?_⟩
        rw [List.cons_append] at hrun
        rw [List.length_replicate]
        omega
    rw [if_neg hquote] at h
    split_ifs at h with hescape hline hcontrol
    · obtain ⟨⟨out, after⟩, hread, rfl⟩ := Option.map_eq_some_iff.mp h
      rcases escape_before hread with ⟨rfl, rfl, rfl⟩ | ⟨left, -, hshorter, rfl, hout⟩
      · exact .inr (.inl rfl)
      · exact .inr (.inr ⟨out, left, rfl, Nat.lt_succ_of_lt hshorter, hout⟩)
    · obtain ⟨after, hread, rfl⟩ := Option.map_eq_some_iff.mp h
      obtain ⟨left, -, hshorter, rfl⟩ := newline_before (List.cons_append ▸ hread)
      exact .inr (.inr ⟨['\n'], left, rfl, hshorter, le_rfl⟩)
    · exact .inr (.inr (hnext [c] rfl h))

/-- **Up to a quote that something else follows** a string of several lines comes out
no longer, or that quote comes out of it too early. -/
theorem body_multi (hw : w ≠ []) (hraw : Raw w)
    (h : body '"' true n (a ++ '"' :: (w ++ b)) = some (v, rest)) :
    v.length ≤ a.length ∨ ∃ e v', v = e ++ '"' :: (w ++ v') ∧ e.length ≤ a.length := by
  induction n generalizing a v with
  | zero => cases h
  | succ n ih =>
    rcases hpiece : piece '"' true (a ++ '"' :: (w ++ b)) with _ | p
    · rw [body, hpiece] at h
      cases h
    rw [body, hpiece] at h
    rcases piece_before hw hraw hpiece with
      ⟨extra, after, rfl, hextra⟩ | rfl | ⟨out, left, rfl, hshorter, hout⟩
    · obtain ⟨rfl, -⟩ := Prod.mk.inj (Option.some.inj h)
      exact .inl hextra
    · obtain ⟨⟨tail, left⟩, hbody, heq⟩ := Option.map_eq_some_iff.mp h
      obtain ⟨rfl, rfl⟩ := Prod.mk.inj heq
      obtain ⟨v', rfl⟩ := body_raw hraw hbody
      exact .inr ⟨[], v', rfl, Nat.zero_le _⟩
    · obtain ⟨⟨tail, after⟩, hbody, heq⟩ := Option.map_eq_some_iff.mp h
      obtain ⟨rfl, rfl⟩ := Prod.mk.inj heq
      rcases ih hbody with hle | ⟨e, v', rfl, hle⟩
      · exact .inl (by simp only [List.length_append]; omega)
      · exact .inr ⟨out ++ e, v', by rw [List.append_assoc], by rw [List.length_append]; omega⟩

/-! ## What is read is the string, or it was plain -/

/-- **A plain string between quotes is read as itself**, and ends at the second of them. -/
theorem quoted_plain (h : Plain s) (hn : s.length < n) (hrest : rest.head? ≠ some '"') :
    quoted n ('"' :: (s ++ '"' :: rest)) = some (s, rest) := by
  rw [quoted, if_neg, body_plain h hn]
  intro hprefix
  cases s with
  | nil =>
    cases rest with
    | nil => simp at hprefix
    | cons c rest =>
      rw [List.nil_append] at hprefix
      obtain rfl : '"' = c := by simpa using hprefix
      exact hrest rfl
  | cons c s =>
    have hc : '"' = c := by
      have hboth := hprefix
      simp only [List.cons_append, List.isPrefixOf, Bool.and_eq_true, beq_iff_eq] at hboth
      exact hboth.1
    exact (plain_cons.mp h).1.1 hc.symm

/-- The places of two things in a list that are both told apart from what is in front. -/
theorem mem_of_append_eq {e v' : Text} (h : a ++ '"' :: b = e ++ '"' :: v')
    (hless : e.length < a.length) : '"' ∈ a := by
  obtain ⟨tail, rfl, htail⟩ | ⟨tail, rfl, htail⟩ := List.append_eq_append_iff.mp h
  · rw [List.length_append] at hless
    omega
  · cases tail with
    | nil =>
      rw [List.append_nil] at hless
      exact absurd hless (Nat.lt_irrefl _)
    | cons c tail =>
      obtain ⟨rfl, -⟩ := List.cons.inj htail
      exact List.mem_append_right _ (List.mem_cons_self ..)

/-- **A string that is read to its end as itself is plain**: every character took one step,
and none was escaped. -/
theorem plain_of_body (h : body '"' false n (s ++ '"' :: rest) = some (s, X)) : Plain s := by
  by_cases hquote : '"' ∈ s
  · obtain ⟨a, b, rfl, ha⟩ := List.eq_append_cons_of_mem hquote
    rw [List.append_assoc, List.cons_append] at h
    rcases body_short ha h with ⟨heq, -⟩ | hless | ⟨e, v', heq, hless⟩
    · simp at heq
    · simp at hless
    · exact absurd (mem_of_append_eq heq hless) ha
  · rcases body_short hquote h with ⟨-, hplain⟩ | hless | ⟨e, v', heq, -⟩
    · exact hplain
    · exact absurd hless (Nat.lt_irrefl _)
    · exact absurd (heq ▸ List.mem_append_right _ (List.mem_cons_self ..)) hquote

/-- **A string between quotes is read only if it is plain.** What follows the closing quote
starts with text that stands for itself, and is more than a line end. -/
theorem plain_of_quoted (hw : w ≠ []) (hline : w ≠ ['\n']) (hraw : Raw w)
    (h : quoted n ('"' :: (s ++ '"' :: (w ++ rest))) = some (s, X)) : Plain s := by
  rw [quoted] at h
  split_ifs at h with hprefix
  · exfalso
    obtain ⟨inside, htext⟩ : ∃ inside, s ++ '"' :: (w ++ rest) = '"' :: '"' :: inside := by
      obtain ⟨inside, hinside⟩ := List.isPrefixOf_iff_prefix.mp hprefix
      exact ⟨inside, hinside.symm⟩
    rw [htext, List.drop_succ_cons, List.drop_succ_cons, List.drop_zero] at h
    -- the first place where a quote is followed by what follows the closing one
    have hplaces : ∃ place, ∃ a b, s ++ '"' :: (w ++ rest) = a ++ '"' :: (w ++ b) ∧
        a.length = place := ⟨s.length, s, rest, rfl, rfl⟩
    classical
    obtain ⟨a, b, hplace, hlength⟩ := Nat.find_spec hplaces
    have hfirst : ∀ {e v' : Text}, s ++ '"' :: (w ++ rest) = e ++ '"' :: (w ++ v') →
        a.length ≤ e.length := fun heq => hlength ▸ Nat.find_min' hplaces ⟨_, _, heq, rfl⟩
    have hle : a.length ≤ s.length := hfirst rfl
    have hhead : ∀ {c : Char} {tail : Text}, s = c :: tail → c = '"' := by
      rintro c tail rfl
      exact (List.cons.inj htext).1
    have hstart : ∀ {w' : Text}, w' ≠ [] → Raw w' → body '"' true n (w' ++ b) ≠ some (s, X) := by
      intro w' hw' hraw' hbody
      obtain ⟨v', rfl⟩ := body_raw hraw' hbody
      obtain ⟨c, w', rfl⟩ := List.exists_cons_of_ne_nil hw'
      exact (raw_cons.mp hraw').1.1 (hhead rfl)
    rw [htext] at hplace
    obtain ⟨d, w', rfl⟩ := List.exists_cons_of_ne_nil hw
    rcases a with _ | ⟨c, _ | ⟨c', a⟩⟩
    · exact (raw_cons.mp hraw).1.1 (List.cons.inj (List.cons.inj hplace).2).1.symm
    · -- the opening quotes end where the string ends: what follows is read in its place
      obtain rfl : inside = d :: w' ++ b := (List.cons.inj (List.cons.inj hplace).2).2
      by_cases hd : d = '\n'
      · subst hd
        rw [List.cons_append, newline, if_pos rfl, Option.getD_some] at h
        exact hstart (fun hnil => hline (by rw [hnil])) (raw_cons.mp hraw).2 h
      · have hcontrol : isControl d = false := (raw_cons.mp hraw).1.2.2.resolve_left hd
        rw [List.cons_append, newline_eq_none hcontrol, Option.getD_none] at h
        exact hstart (List.cons_ne_nil d w') hraw h
    · obtain rfl : inside = a ++ '"' :: (d :: w' ++ b) :=
        (List.cons.inj (List.cons.inj hplace).2).2
      obtain ⟨left, hleft, hbody⟩ : ∃ left : Text, left.length ≤ a.length ∧
          body '"' true n (left ++ '"' :: (d :: w' ++ b)) = some (s, X) := by
        rcases hread : newline (a ++ '"' :: (d :: w' ++ b)) with _ | after
        · rw [hread, Option.getD_none] at h
          exact ⟨a, le_rfl, h⟩
        · rw [hread, Option.getD_some] at h
          obtain ⟨left, -, hshorter, rfl⟩ := newline_before hread
          exact ⟨left, hshorter.le, h⟩
      simp only [List.length_cons] at hle
      rcases body_multi hw hraw hbody with hless | ⟨e, v', heq, hless⟩
      · omega
      · have htwice : s ++ '"' :: (d :: w' ++ rest) =
            e ++ '"' :: (d :: w' ++ (v' ++ '"' :: (d :: w' ++ rest))) := by
          conv_lhs => rw [heq]
          simp only [List.append_assoc, List.cons_append]
        have hearly : a.length + 1 + 1 ≤ e.length := hfirst htwice
        omega
  · exact plain_of_body h

end Toml
