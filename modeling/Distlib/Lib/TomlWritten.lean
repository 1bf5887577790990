import Distlib.Lib.TomlPlain
import Distlib.Lib.TomlTables

/-!
# Values that are written and read back

How a program writes values without a serialiser: a string between quotes, a
number in digits, the items of an array and the pairs of an inline table with
commas between them. `ReadsAs` says that a text is read as a value wherever a
comma, a bracket, a blank or a line end follows. `Tells` is the other way round,
for a text with a string in it that may not be plain: if it is read as what it
was meant to be, then it was plain after all.

Fuel is a number of steps that the length of the text pays for, four to each
character.
-/

namespace Toml

variable {bare : Text → Option (Value × Text)} {n : ℕ} {rest : Text}

/-! ## Words -/

/-- What may follow a value. -/
def Stops (rest : Text) : Prop :=
  ∃ c tail, rest = c :: tail ∧ (c = ',' ∨ c = ']' ∨ c = ' ' ∨ c = '\n')

/-- What a value may start with: nothing that could be passed over. -/
def Opens (text : Text) : Prop :=
  ∃ c tail, text = c :: tail ∧ isBlank c = false ∧ c ≠ '#' ∧ c ≠ '\n' ∧ c ≠ '\r' ∧ c ≠ ']'

/-- A text is read as a value, whatever follows. -/
structure ReadsAs (bare : Text → Option (Value × Text)) (text : Text) (v : Value) : Prop where
  opens : Opens text
  reads : ∀ n rest, Stops rest → 4 * (text ++ rest).length < n →
    value bare n (text ++ rest) = some (v, rest)

/-- A word ends where something follows that could not be in it. -/
theorem takeWhile_word {p : Char → Bool} {word : Text} (hword : ∀ c ∈ word, p c = true)
    (hrest : ∀ c ∈ rest.head?, p c = false) :
    (word ++ rest).takeWhile p = word ∧ (word ++ rest).dropWhile p = rest := by
  rw [List.takeWhile_append_of_pos hword, List.dropWhile_append_of_pos hword]
  cases rest with
  | nil => exact ⟨List.append_nil _, rfl⟩
  | cons c rest =>
    have hc : ¬ p c = true := Bool.eq_false_iff.mp (hrest c rfl)
    rw [List.takeWhile_cons_of_neg hc, List.dropWhile_cons_of_neg hc]
    exact ⟨List.append_nil _, rfl⟩

/-- Nothing that may follow a value goes on a word. -/
theorem Stops.not_word (h : Stops rest) : ∀ c ∈ rest.head?, isWord c = false := by
  obtain ⟨c, tail, rfl, rfl | rfl | rfl | rfl⟩ := h <;>
    exact fun d hd => by obtain rfl := Option.some.inj hd; decide

/-- Where every item of a list is read, the list is. -/
theorem mapM_eq_map {α β : Type} {f : α → Option β} {g : α → β} {l : List α}
    (h : ∀ a ∈ l, f a = some (g a)) : l.mapM f = some (l.map g) := by
  induction l with
  | nil => rfl
  | cons a l ih =>
    rw [List.mapM_cons, h a (List.mem_cons_self ..), ih fun b hb => h b (List.mem_cons_of_mem _ hb)]
    rfl

/-- A decimal digit is a hex digit below ten. -/
theorem hexDigit?_of_isDigit {c : Char} (h : c.isDigit) :
    (hexDigit? c).filter (· < 10) = some (c.toNat - '0'.toNat) := by
  obtain ⟨hlow, hhigh⟩ := Char.isDigit_iff_toNat.mp h
  have hrange : '0' ≤ c ∧ c ≤ '9' := ⟨hlow, hhigh⟩
  have hsmall : c.toNat - 48 < 10 := by
    have hnine : c.toNat ≤ 57 := hhigh
    omega
  rw [hexDigit?, if_pos hrange]
  exact Option.filter_some_pos (decide_eq_true hsmall)

/-- Decimals that are written without underscores are read as the number. -/
theorem grouped_toDigits (m : ℕ) : grouped 10 (Nat.toDigits 10 m) = some m := by
  have hdigit : ∀ c ∈ Nat.toDigits 10 m, c.isDigit := fun c hc =>
    Nat.isDigit_of_mem_toDigits (by decide) le_rfl hc
  have hplain : ∀ c ∈ Nat.toDigits 10 m, (c != '_') = true := fun c hc =>
    bne_iff_ne.mpr (by rintro rfl; exact absurd (hdigit _ hc) (by decide))
  have hmap : (Nat.toDigits 10 m).mapM (fun c => (hexDigit? c).filter (· < 10)) =
      some ((Nat.toDigits 10 m).map fun c => c.toNat - '0'.toNat) :=
    mapM_eq_map fun c hc => hexDigit?_of_isDigit (hdigit c hc)
  rw [grouped, List.splitOn_eq_singleton Nat.underscore_not_in_toDigits, if_pos (by simp),
    List.filter_eq_self.mpr hplain, hmap, Option.map_some, List.foldl_map]
  exact congrArg some Nat.ofDigitChars_ten_toDigits

/-- A number is written without a zero in front of its other digits. -/
theorem toDigits_zero_cons {m : ℕ} {tail : Text} (h : Nat.toDigits 10 m = '0' :: tail) :
    Nat.toDigits 10 m = ['0'] := by
  induction m using Nat.strong_induction_on generalizing tail with
  | _ m ih =>
    by_cases hsmall : m < 10
    · rw [Nat.toDigits_of_lt_base hsmall] at h ⊢
      rw [(List.cons.inj h).1]
    · rw [Nat.toDigits_of_base_le (by decide) (not_lt.mp hsmall)] at h
      obtain ⟨c, front, hfront⟩ := List.exists_cons_of_ne_nil
        (Nat.toDigits_ne_nil : Nat.toDigits 10 (m / 10) ≠ [])
      rw [hfront, List.cons_append] at h
      obtain ⟨rfl, -⟩ := List.cons.inj h
      have hzero : m / 10 = 0 := by
        rw [← Nat.ofDigitChars_ten_toDigits (n := m / 10), ih (m / 10) (by omega) hfront]
        rfl
      omega

/-- A number in digits has no sign, no leading zero and no base before it. -/
theorem number_toDigits (m : ℕ) : number (Nat.toDigits 10 m) = some (m : ℤ) := by
  obtain ⟨c, tail, hdigits⟩ := List.exists_cons_of_ne_nil
    (Nat.toDigits_ne_nil : Nat.toDigits 10 m ≠ [])
  have hc : c.isDigit := Nat.isDigit_of_mem_toDigits (by decide) le_rfl
    (hdigits ▸ List.mem_cons_self ..)
  have hplus : c ≠ '+' := by rintro rfl; exact absurd hc (by decide)
  have hminus : c ≠ '-' := by rintro rfl; exact absurd hc (by decide)
  have htail : c = '0' → tail = [] := by
    rintro rfl
    exact (List.cons.inj (hdigits.symm.trans (toDigits_zero_cons hdigits))).2
  have hbase : ∀ d, ¬ (c = '0' ∧ tail.head? = some d) := by
    rintro d ⟨hzero, hhead⟩
    rw [htail hzero] at hhead
    cases hhead
  have hdecimal : decimal (c :: tail) = some m := by
    rw [decimal, if_neg, ← hdigits, grouped_toDigits]
    rintro ⟨hzero, hmore⟩
    obtain rfl := Option.some.inj hzero
    exact hmore (by rw [htail rfl])
  rw [hdigits, number, if_neg hplus, if_neg hminus, if_neg (hbase _), if_neg (hbase _),
    if_neg (hbase _), hdecimal]
  rfl

theorem isWord_of_isDigit {c : Char} (h : c.isDigit) : isWord c = true := by
  simp [isWord, isBare, Char.isAlphanum, h]

/-- **A number is read back if it is below 2⁶³**, and is an error otherwise. -/
theorem scalar_toDigits (m : ℕ) (hrest : Stops rest) :
    scalar bare (Nat.toDigits 10 m ++ rest) =
      if m < 2 ^ 63 then some (.integer m, rest) else none := by
  have hdigit : ∀ c ∈ Nat.toDigits 10 m, c.isDigit := fun c hc =>
    Nat.isDigit_of_mem_toDigits (by decide) le_rfl hc
  obtain ⟨htake, hdrop⟩ := takeWhile_word (fun c hc => isWord_of_isDigit (hdigit c hc))
    hrest.not_word
  have hword : ∀ word : Text, 't' ∈ word ∨ 'f' ∈ word → Nat.toDigits 10 m ≠ word := by
    rintro word hmem rfl
    rcases hmem with hmem | hmem <;> exact absurd (hdigit _ hmem) (by decide)
  rw [scalar, htake, hdrop, if_neg (hword _ (by decide)), if_neg (hword _ (by decide)),
    number_toDigits]
  dsimp only
  split_ifs <;> first | rfl | omega

/-- A number in digits is an integer of 64 bits, or nothing is read. -/
theorem value_of_digits (m : ℕ) (hrest : Stops rest) (hn : 0 < n) :
    value bare n (Nat.toDigits 10 m ++ rest) =
      if m < 2 ^ 63 then some (.integer m, rest) else none := by
  obtain ⟨n, rfl⟩ := Nat.exists_eq_succ_of_ne_zero hn.ne'
  rw [← scalar_toDigits m hrest]
  obtain ⟨c, tail, hdigits⟩ := List.exists_cons_of_ne_nil
    (Nat.toDigits_ne_nil : Nat.toDigits 10 m ≠ [])
  have hc : c.isDigit := Nat.isDigit_of_mem_toDigits (by decide) le_rfl
    (hdigits ▸ List.mem_cons_self ..)
  have hnot : ∀ d : Char, d.isDigit = false → c ≠ d := by
    rintro d hd rfl
    rw [hc] at hd
    cases hd
  rw [hdigits, List.cons_append, value,
    if_neg (not_or.mpr ⟨hnot _ (by decide), hnot _ (by decide)⟩), if_neg (hnot _ (by decide)),
    if_neg (hnot _ (by decide))]

theorem opens_of_word {c : Char} {tail : Text} (h : isWord c = true) : Opens (c :: tail) := by
  refine ⟨c, tail, rfl, ?_, ?_, ?_, ?_, ?_⟩
  · by_contra hblank
    simp only [isBlank, Bool.not_eq_false, Bool.or_eq_true, beq_iff_eq] at hblank
    rcases hblank with rfl | rfl <;> exact absurd h (by decide)
  all_goals rintro rfl; exact absurd h (by decide)

theorem opens_toDigits (m : ℕ) : Opens (Nat.toDigits 10 m) := by
  obtain ⟨c, tail, hdigits⟩ := List.exists_cons_of_ne_nil
    (Nat.toDigits_ne_nil : Nat.toDigits 10 m ≠ [])
  rw [hdigits]
  exact opens_of_word (isWord_of_isDigit (Nat.isDigit_of_mem_toDigits (by decide) le_rfl
    (hdigits ▸ List.mem_cons_self ..)))

/-- A number is read as itself below 2⁶³, which is where TOML's integers end. -/
theorem readsAs_nat {m : ℕ} (hm : m < 2 ^ 63) :
    ReadsAs bare (Nat.toDigits 10 m) (.integer m) where
  opens := opens_toDigits m
  reads n rest hrest hn := by
    rw [value_of_digits m hrest (Nat.zero_lt_of_lt hn), if_pos hm]

/-- A truth value as it is written. -/
def ofBool (b : Bool) : Text := if b then ['t', 'r', 'u', 'e'] else ['f', 'a', 'l', 's', 'e']

/-- The two words of a boolean. -/
theorem readsAs_bool (b : Bool) : ReadsAs bare (ofBool b) (.boolean b) where
  opens := by cases b <;> exact opens_of_word rfl
  reads n rest hrest hn := by
    obtain ⟨n, rfl⟩ := Nat.exists_eq_succ_of_ne_zero (Nat.ne_zero_of_lt hn)
    have hword : ∀ c ∈ ofBool b, isWord c = true :=
      List.all_eq_true.mp (by cases b <;> decide)
    obtain ⟨htake, hdrop⟩ := takeWhile_word hword hrest.not_word
    have hvalue : value bare (n + 1) (ofBool b ++ rest) = scalar bare (ofBool b ++ rest) := by
      cases b <;> simp [ofBool, value]
    rw [Nat.succ_eq_add_one, hvalue, scalar, htake, hdrop]
    cases b <;> rfl

/-! ## Strings between quotes -/

/-- A string between quotes, as it is. -/
def quote (s : Text) : Text := '"' :: (s ++ ['"'])

theorem quote_append (s : Text) : quote s ++ rest = '"' :: (s ++ '"' :: rest) := by
  rw [quote, List.cons_append, List.append_assoc, List.singleton_append]

theorem opens_quote (s : Text) : Opens (quote s) := ⟨'"', s ++ ['"'], rfl, by decide⟩

/-- A plain string between quotes is read as itself: nothing in it ends it, and nothing escapes. -/
theorem readsAs_quote {s : Text} (h : Plain s) : ReadsAs bare (quote s) (.string s) where
  opens := opens_quote s
  reads n rest hrest hn := by
    obtain ⟨n, rfl⟩ := Nat.exists_eq_succ_of_ne_zero (Nat.ne_zero_of_lt hn)
    have hhead : rest.head? ≠ some '"' := by
      obtain ⟨c, tail, rfl, rfl | rfl | rfl | rfl⟩ := hrest <;> simp
    have hfuel : s.length < n := by
      rw [quote_append] at hn
      simp only [List.length_cons, List.length_append] at hn
      omega
    rw [quote_append, value, if_pos (.inl rfl), quoted_plain h hfuel hhead]
    rfl

/-- What may follow a string that is between quotes as it is, so that the reader
cannot take it for the string itself. -/
def Follows (rest : Text) : Prop :=
  ∃ w tail, rest = w ++ tail ∧ w ≠ [] ∧ w ≠ ['\n'] ∧ Raw w

/-- What a comma, a bracket or a blank begins cannot be taken for more of a string. -/
theorem follows_of_cons {c : Char} {tail : Text} (h : c = ',' ∨ c = ']' ∨ c = ' ') :
    Follows (c :: tail) := by
  refine ⟨[c], tail, rfl, List.cons_ne_nil c [], ?_, ?_⟩
  · rcases h with rfl | rfl | rfl <;> decide
  · rcases h with rfl | rfl | rfl <;> decide

/-- And it may follow any value. -/
theorem stops_of_cons {c : Char} {tail : Text} (h : c = ',' ∨ c = ']' ∨ c = ' ') :
    Stops (c :: tail) :=
  ⟨c, tail, rfl, by rcases h with h | h | h <;> simp [h]⟩

/-- A text that is read as something meant only if something holds of it. -/
def Tells (bare : Text → Option (Value × Text)) (text : Text) (means : Value → Prop)
    (good : Prop) : Prop :=
  ∀ n rest v after, Stops rest → Follows rest → 4 * (text ++ rest).length < n →
    value bare n (text ++ rest) = some (v, after) → means v → good

/-- What is read as it was meant is as good as that tells. -/
theorem ReadsAs.good {text : Text} {v : Value} {means : Value → Prop} {good : Prop}
    (h : ReadsAs bare text v) (htells : Tells bare text means good) (hv : means v) : good :=
  htells _ [','] v [','] (stops_of_cons (.inl rfl)) (follows_of_cons (.inl rfl))
    (Nat.lt_succ_self _) (h.reads _ _ (stops_of_cons (.inl rfl)) (Nat.lt_succ_self _)) hv

/-- A text that is good whatever it is read as tells so. -/
theorem tells_of {text : Text} {means : Value → Prop} {good : Prop} (h : good) :
    Tells bare text means good := fun _ _ _ _ _ _ _ _ _ => h

/-- A text tells of less from more. -/
theorem Tells.mono {text : Text} {means means' : Value → Prop} {good good' : Prop}
    (h : Tells bare text means good) (hmeans : ∀ v, means' v → means v) (hgood : good → good') :
    Tells bare text means' good' :=
  fun n rest v after hstops hfollows hn hread hv =>
    hgood (h n rest v after hstops hfollows hn hread (hmeans v hv))

/-- A string is read as itself only if it is plain; it is read as a string in any case. -/
theorem tells_string (s : Text) :
    Tells bare (quote s) (fun v => ∀ t, v = .string t → t = s) (Plain s) := by
  rintro n _ v after - ⟨w, tail, rfl, hw, hline, hraw⟩ - hread hmeans
  cases n with
  | zero => cases hread
  | succ n =>
    rw [quote_append, value, if_pos (.inl rfl)] at hread
    obtain ⟨⟨t, left⟩, hquoted, heq⟩ := Option.map_eq_some_iff.mp hread
    obtain ⟨rfl, -⟩ := Prod.mk.inj heq
    obtain rfl : t = s := hmeans t rfl
    exact plain_of_quoted hw hline hraw hquoted

/-- **A string that is read as it was put between quotes is plain.** Otherwise it ends at
its first quote, or turns a character into another, and is shorter or not the same. -/
theorem tells_quote (s : Text) :
    Tells bare (quote s) (fun v => v.settled = true → v = .string s) (Plain s) := by
  refine (tells_string s).mono (fun v hv t ht => ?_) fun h => h
  subst ht
  exact Value.string.inj (hv rfl)

/-- So a string is read as itself exactly if it is plain. -/
theorem readsAs_quote_iff {s : Text} : ReadsAs bare (quote s) (.string s) ↔ Plain s :=
  ⟨fun h => h.good (tells_quote s) fun _ => rfl, readsAs_quote⟩

/-- A number is read only if it is below 2⁶³, whatever it is read as. -/
theorem tells_nat (m : ℕ) (means : Value → Prop) :
    Tells bare (Nat.toDigits 10 m) means (m < 2 ^ 63) := by
  rintro n rest v after hstops - hn hread -
  rw [value_of_digits m hstops (Nat.zero_lt_of_lt hn)] at hread
  by_contra hm
  rw [if_neg hm] at hread
  cases hread

/-- And a number, exactly if it is small enough. -/
theorem readsAs_nat_iff {m : ℕ} :
    ReadsAs bare (Nat.toDigits 10 m) (.integer m) ↔ m < 2 ^ 63 :=
  ⟨fun h => h.good (tells_nat m fun _ => True) trivial, readsAs_nat⟩

/-! ## Items with commas between them -/

/-- Texts one after the other, with a comma and a blank between two. -/
def commas : List Text → Text
  | [] => []
  | [text] => text
  | text :: more => text ++ ',' :: ' ' :: commas more

theorem Opens.skipBlanks {text : Text} (h : Opens text) :
    skipBlanks (text ++ rest) = text ++ rest := by
  obtain ⟨c, tail, rfl, hblank, -⟩ := h
  exact List.dropWhile_cons_of_neg (Bool.eq_false_iff.mp hblank)

/-- There is nothing to pass over before a value. -/
theorem Opens.skipSpace {text : Text} (h : Opens text) :
    skipSpace (n + 1) (text ++ rest) = some (text ++ rest) := by
  rw [Toml.skipSpace, h.skipBlanks]
  obtain ⟨c, tail, rfl, -, hcomment, hline, hreturn, -⟩ := h
  simp [newline, hcomment, hline, hreturn]

theorem skipSpace_of_cons {c : Char} (h : c = ',' ∨ c = ']') :
    skipSpace (n + 1) (c :: rest) = some (c :: rest) := by
  rcases h with rfl | rfl <;> rfl

/-- A blank in front of an item is passed over. -/
theorem items_blank : items bare n (' ' :: rest) = items bare n rest := by
  have hblank : ∀ n, Toml.skipSpace n (' ' :: rest) = Toml.skipSpace n rest := by
    rintro (_ | n)
    · rfl
    · rw [Toml.skipSpace, Toml.skipSpace]
      rfl
  cases n with
  | zero => rfl
  | succ n => rw [items, items, hblank]

/-- An array at one of its items. -/
theorem items_opens {text : Text} (h : Opens text) :
    items bare (n + 2) (text ++ rest) =
      (value bare (n + 1) (text ++ rest)).bind fun first =>
        (skipSpace (n + 1) first.2).bind fun rest =>
          if rest.head? = some ',' then
            (items bare (n + 1) rest.tail).map fun read => (first.1 :: read.1, read.2)
          else if rest.head? = some ']' then some ([first.1], rest.tail)
          else none := by
  have hhead : (text ++ rest).head? ≠ some ']' := by
    obtain ⟨c, tail, rfl, -, -, -, -, hclose⟩ := h
    exact fun heq => hclose (Option.some.inj heq)
  rw [items, h.skipSpace, Option.bind_some, if_neg hhead]

theorem items_close : items bare (n + 2) (']' :: rest) = some ([], rest) := rfl

/-- An array at an item that is read, and the comma behind it. -/
theorem items_comma {text tail : Text} {v : Value} (h : ReadsAs bare text v)
    (hn : 4 * (text ++ ',' :: tail).length < n + 1) :
    items bare (n + 2) (text ++ ',' :: tail) =
      (items bare (n + 1) tail).map fun read => (v :: read.1, read.2) := by
  rw [items_opens h.opens, h.reads _ _ (stops_of_cons (.inl rfl)) hn, Option.bind_some,
    skipSpace_of_cons (.inl rfl), Option.bind_some]
  rfl

/-- An array at its last item. -/
theorem items_last {text tail : Text} {v : Value} (h : ReadsAs bare text v)
    (hn : 4 * (text ++ ']' :: tail).length < n + 1) :
    items bare (n + 2) (text ++ ']' :: tail) = some ([v], tail) := by
  rw [items_opens h.opens, h.reads _ _ (stops_of_cons (.inr (.inl rfl))) hn, Option.bind_some,
    skipSpace_of_cons (.inr rfl), Option.bind_some]
  rfl

/-- Items with commas between them are read one by one. -/
theorem items_commas {l : List (Text × Value)} (h : ∀ item ∈ l, ReadsAs bare item.1 item.2)
    (hn : 4 * (commas (l.map Prod.fst) ++ ']' :: rest).length + 3 < n) :
    items bare n (commas (l.map Prod.fst) ++ ']' :: rest) = some (l.map Prod.snd, rest) := by
  induction l generalizing n with
  | nil =>
    obtain ⟨n, rfl⟩ := Nat.exists_eq_add_of_le' (by omega : 2 ≤ n)
    exact items_close
  | cons item l ih =>
    obtain ⟨n, rfl⟩ := Nat.exists_eq_add_of_le' (by omega : 2 ≤ n)
    obtain ⟨hitem, hl⟩ := List.forall_mem_cons.mp h
    cases l with
    | nil =>
      have htext : commas ([item].map Prod.fst) ++ ']' :: rest = item.1 ++ ']' :: rest := rfl
      rw [htext] at hn ⊢
      exact items_last hitem (by omega)
    | cons next l =>
      have htext : commas ((item :: next :: l).map Prod.fst) ++ ']' :: rest =
          item.1 ++ ',' :: ' ' :: (commas ((next :: l).map Prod.fst) ++ ']' :: rest) := by
        simp [commas]
      rw [htext] at hn ⊢
      simp only [List.length_append, List.length_cons] at hn
      rw [items_comma hitem (by simp only [List.length_append, List.length_cons]; omega),
        items_blank, ih hl (by simp only [List.length_append, List.length_cons]; omega)]
      rfl

/-- An array between its brackets. -/
def bracketed (texts : List Text) : Text := '[' :: (commas texts ++ [']'])

theorem bracketed_append (texts : List Text) :
    bracketed texts ++ rest = '[' :: (commas texts ++ ']' :: rest) := by
  rw [bracketed, List.cons_append, List.append_assoc, List.singleton_append]

/-- An array is what its items are, read to the closing bracket. -/
theorem value_bracketed (texts : List Text) :
    value bare (n + 1) (bracketed texts ++ rest) =
      (items bare n (commas texts ++ ']' :: rest)).map
        fun read => (.array false read.1, read.2) := by
  rw [bracketed_append, value, if_neg (by decide), if_pos rfl]

/-- **An array is read item by item**, each of them wherever it stands. -/
theorem readsAs_array {l : List (Text × Value)} (h : ∀ item ∈ l, ReadsAs bare item.1 item.2) :
    ReadsAs bare (bracketed (l.map Prod.fst)) (.array false (l.map Prod.snd)) where
  opens := ⟨'[', _, rfl, by decide⟩
  reads n rest hrest hn := by
    obtain ⟨n, rfl⟩ := Nat.exists_eq_succ_of_ne_zero (Nat.ne_zero_of_lt hn)
    rw [bracketed_append, List.length_cons] at hn
    rw [Nat.succ_eq_add_one, value_bracketed, items_commas h (by omega)]
    rfl

/-- If an array is read as what it was meant to be, so is each of its items. -/
theorem items_tell {α : Type} {text : α → Text} {means : α → Value → Prop} {good : α → Prop}
    {l : List α} {vs : List Value} {after : Text}
    (hopens : ∀ a ∈ l, Opens (text a))
    (htells : ∀ a ∈ l, Tells bare (text a) (means a) (good a))
    (hreads : ∀ a ∈ l, good a → ∃ v, ReadsAs bare (text a) v)
    (hn : 4 * (commas (l.map text) ++ ']' :: rest).length + 3 < n)
    (hread : items bare n (commas (l.map text) ++ ']' :: rest) = some (vs, after))
    (hmeans : List.Forall₂ means l vs) : ∀ a ∈ l, good a := by
  induction l generalizing n vs with
  | nil => exact List.forall_mem_nil _
  | cons a l ih =>
    obtain ⟨n, rfl⟩ := Nat.exists_eq_add_of_le' (by omega : 2 ≤ n)
    rw [List.forall_mem_cons] at hopens htells hreads ⊢
    obtain ⟨v, vs, hv, hvs, rfl⟩ := List.forall₂_cons_left_iff.mp hmeans
    -- the first item, whatever follows it
    have hfirst : ∀ tail, Stops tail → Follows tail → 4 * (text a ++ tail).length < n + 1 →
        items bare (n + 2) (text a ++ tail) = some (v :: vs, after) → good a := by
      intro tail hstops hfollows hlength hitems
      rw [items_opens hopens.1] at hitems
      obtain ⟨⟨w, left⟩, hvalue, hmore⟩ := Option.bind_eq_some_iff.mp hitems
      obtain ⟨more, -, hmore⟩ := Option.bind_eq_some_iff.mp hmore
      have hw : w = v := by
        split_ifs at hmore with hcomma hclose
        · obtain ⟨_, -, heq⟩ := Option.map_eq_some_iff.mp hmore
          exact (List.cons.inj (Prod.mk.inj heq).1).1
        · exact (List.cons.inj (Prod.mk.inj (Option.some.inj hmore)).1).1
      exact htells.1 _ _ _ _ hstops hfollows hlength hvalue (hw ▸ hv)
    cases l with
    | nil =>
      have htext : commas ([a].map text) ++ ']' :: rest = text a ++ ']' :: rest := rfl
      rw [htext] at hn hread
      exact ⟨hfirst _ (stops_of_cons (.inr (.inl rfl))) (follows_of_cons (.inr (.inl rfl)))
        (by omega) hread,
        List.forall_mem_nil _⟩
    | cons b l =>
      have htext : commas ((a :: b :: l).map text) ++ ']' :: rest =
          text a ++ ',' :: ' ' :: (commas ((b :: l).map text) ++ ']' :: rest) := by
        simp [commas]
      rw [htext] at hn hread
      simp only [List.length_append, List.length_cons] at hn
      have hlength : 4 * (text a ++
          ',' :: ' ' :: (commas ((b :: l).map text) ++ ']' :: rest)).length < n + 1 := by
        simp only [List.length_append, List.length_cons]
        omega
      have hgood := hfirst _ (stops_of_cons (.inl rfl)) (follows_of_cons (.inl rfl)) hlength hread
      obtain ⟨w, hreadsAs⟩ := hreads.1 hgood
      rw [items_comma hreadsAs hlength, items_blank] at hread
      obtain ⟨⟨ws, left⟩, hitems, heq⟩ := Option.map_eq_some_iff.mp hread
      obtain ⟨hws, rfl⟩ := Prod.mk.inj heq
      obtain rfl := (List.cons.inj hws).2
      exact ⟨hgood, ih hopens.2 htells.2 hreads.2
        (by simp only [List.length_append, List.length_cons]; omega) hitems hvs⟩

/-- An array is read as what it was meant to be only if each of its items is. -/
theorem tells_array {α : Type} {text : α → Text} {means : α → Value → Prop} {good : α → Prop}
    {l : List α} {meansAll : Value → Prop} (hopens : ∀ a ∈ l, Opens (text a))
    (htells : ∀ a ∈ l, Tells bare (text a) (means a) (good a))
    (hreads : ∀ a ∈ l, good a → ∃ v, ReadsAs bare (text a) v)
    (hmeans : ∀ vs, meansAll (.array false vs) → List.Forall₂ means l vs) :
    Tells bare (bracketed (l.map text)) meansAll (∀ a ∈ l, good a) := by
  intro n rest v after hstops hfollows hn hread hv
  rw [bracketed_append, List.length_cons] at hn
  obtain ⟨n, rfl⟩ := Nat.exists_eq_succ_of_ne_zero (Nat.ne_zero_of_lt hn)
  rw [Nat.succ_eq_add_one, value_bracketed] at hread
  obtain ⟨⟨vs, left⟩, hitems, heq⟩ := Option.map_eq_some_iff.mp hread
  obtain ⟨rfl, -⟩ := Prod.mk.inj heq
  exact items_tell hopens htells hreads (by omega) hitems (hmeans vs hv)

/-! ## Keys and inline tables -/

/-- A key that needs no quotes. -/
def BareKey (k : Text) : Prop := k ≠ [] ∧ k.all isBare = true

instance (k : Text) : Decidable (BareKey k) :=
  inferInstanceAs (Decidable (k ≠ [] ∧ k.all isBare = true))

/-- A bare key ends at the blank or the sign that follows, and is one part if no dot does. -/
theorem key_bare {k : Text} {c : Char} {tail : Text} (hk : BareKey k)
    (hrest : ∀ d ∈ rest.head?, isBare d = false) (hnext : skipBlanks rest = c :: tail)
    (hdot : c ≠ '.') : key (n + 1) (k ++ rest) = some ([k], c :: tail) := by
  have hsimple : simpleKey n (k ++ rest) = some (k, rest) := by
    obtain ⟨htake, hdrop⟩ := takeWhile_word (List.all_eq_true.mp hk.2) hrest
    obtain ⟨d, k', rfl⟩ := List.exists_cons_of_ne_nil hk.1
    have hd : isBare d = true := List.all_eq_true.mp hk.2 d (List.mem_cons_self ..)
    have hquote : ¬ (d = '"' ∨ d = '\'') := by
      rintro (rfl | rfl) <;> exact absurd hd (by decide)
    rw [List.cons_append] at htake hdrop ⊢
    rw [simpleKey, if_neg hquote, if_pos hd, htake, hdrop]
  rw [key, hsimple, Option.bind_some, hnext]
  exact if_neg hdot

/-- A key and a value, as they are written. -/
def setting (k text : Text) : Text := k ++ ' ' :: '=' :: ' ' :: text

theorem setting_append (k text : Text) :
    setting k text ++ rest = k ++ ' ' :: '=' :: ' ' :: (text ++ rest) := by
  simp [setting]

/-- The key of a setting is read, and what is left is its value. -/
theorem key_setting {k text : Text} (hk : BareKey k) :
    key (n + 1) (setting k text ++ rest) = some ([k], '=' :: ' ' :: (text ++ rest)) := by
  rw [setting_append]
  exact key_bare hk (fun d hd => by obtain rfl := Option.some.inj hd; decide) rfl (by decide)

/-- An inline table at one of its pairs. -/
theorem morePairs_setting {k text : Text} (hk : BareKey k) (h : Opens text) :
    morePairs bare (n + 2) (setting k text ++ rest) =
      (value bare (n + 1) (text ++ rest)).bind fun read =>
        if (skipBlanks read.2).head? = some ',' then
          (morePairs bare (n + 1) (skipBlanks (skipBlanks read.2).tail)).map fun more =>
            (([k], read.1) :: more.1, more.2)
        else if (skipBlanks read.2).head? = some '}' then
          some ([([k], read.1)], (skipBlanks read.2).tail)
        else none := by
  have hblank : skipBlanks (' ' :: (text ++ rest)) = skipBlanks (text ++ rest) := rfl
  rw [morePairs, key_setting hk, Option.bind_some]
  dsimp only
  rw [List.head?_cons, if_pos rfl, List.tail_cons, hblank, h.skipBlanks]

/-- One pair of an inline table: its key, its value as it is written, and what it is. -/
structure Pair where
  key : Text
  text : Text
  value : Value

/-- What is written of a pair. -/
def Pair.setting (pair : Pair) : Text := Toml.setting pair.key pair.text

/-- A pair of an inline table that others follow. -/
theorem morePairs_comma {pair : Pair} {text : Text} (hk : BareKey pair.key) (hopens : Opens text)
    (h : ReadsAs bare pair.text pair.value)
    (hn : 4 * (pair.text ++ ',' :: ' ' :: (text ++ rest)).length < n + 1) :
    morePairs bare (n + 2) (pair.setting ++ ',' :: ' ' :: (text ++ rest)) =
      (morePairs bare (n + 1) (text ++ rest)).map fun more =>
        (([pair.key], pair.value) :: more.1, more.2) := by
  have hblank : skipBlanks (' ' :: (text ++ rest)) = text ++ rest := hopens.skipBlanks
  have hcomma : skipBlanks (',' :: ' ' :: (text ++ rest)) = ',' :: ' ' :: (text ++ rest) := rfl
  rw [Pair.setting, morePairs_setting hk h.opens, h.reads _ _ (stops_of_cons (.inl rfl)) hn,
    Option.bind_some]
  dsimp only
  rw [hcomma, List.head?_cons, if_pos rfl, List.tail_cons, hblank]

/-- And the last one, before the brace. -/
theorem morePairs_last {pair : Pair} (hk : BareKey pair.key)
    (h : ReadsAs bare pair.text pair.value)
    (hn : 4 * (pair.text ++ ' ' :: '}' :: rest).length < n + 1) :
    morePairs bare (n + 2) (pair.setting ++ ' ' :: '}' :: rest) =
      some ([([pair.key], pair.value)], rest) := by
  rw [Pair.setting, morePairs_setting hk h.opens,
    h.reads _ _ (stops_of_cons (.inr (.inr rfl))) hn, Option.bind_some]
  rfl

theorem commas_setting {pair : Pair} {l : List Pair} (hk : BareKey pair.key) :
    Opens (commas ((pair :: l).map Pair.setting)) ∧
      (commas ((pair :: l).map Pair.setting)).head? ≠ some '}' := by
  obtain ⟨c, tail, hkey⟩ := List.exists_cons_of_ne_nil hk.1
  have hc : isBare c = true := List.all_eq_true.mp hk.2 c (hkey ▸ List.mem_cons_self ..)
  obtain ⟨more, hmore⟩ : ∃ more, commas ((pair :: l).map Pair.setting) = c :: more := by
    have hsetting : ∃ more, pair.setting = c :: more := by
      rw [Pair.setting, setting, hkey]
      exact ⟨_, rfl⟩
    obtain ⟨more, hsetting⟩ := hsetting
    cases l with
    | nil => exact ⟨more, hsetting⟩
    | cons next l =>
      refine ⟨more ++ ',' :: ' ' :: commas ((next :: l).map Pair.setting), ?_⟩
      rw [← List.cons_append, ← hsetting]
      rfl
  rw [hmore]
  refine ⟨opens_of_word (by rw [isWord, hc]; rfl), fun heq => ?_⟩
  obtain rfl := Option.some.inj heq
  exact absurd hc (by decide)

/-- Pairs with commas between them are read one by one. -/
theorem morePairs_commas {pair : Pair} {l : List Pair}
    (hk : ∀ p ∈ pair :: l, BareKey p.key) (h : ∀ p ∈ pair :: l, ReadsAs bare p.text p.value)
    (hn : 4 * (commas ((pair :: l).map Pair.setting) ++ ' ' :: '}' :: rest).length + 2 < n) :
    morePairs bare n (commas ((pair :: l).map Pair.setting) ++ ' ' :: '}' :: rest) =
      some ((pair :: l).map fun p => ([p.key], p.value), rest) := by
  induction l generalizing pair n with
  | nil =>
    obtain ⟨n, rfl⟩ := Nat.exists_eq_add_of_le' (by omega : 2 ≤ n)
    have htext : commas ([pair].map Pair.setting) ++ ' ' :: '}' :: rest =
        pair.setting ++ ' ' :: '}' :: rest := rfl
    rw [htext] at hn ⊢
    rw [Pair.setting, setting_append] at hn
    simp only [List.length_append, List.length_cons] at hn
    exact morePairs_last (hk _ (List.mem_cons_self ..)) (h _ (List.mem_cons_self ..))
      (by simp only [List.length_append, List.length_cons]; omega)
  | cons next l ih =>
    obtain ⟨n, rfl⟩ := Nat.exists_eq_add_of_le' (by omega : 2 ≤ n)
    obtain ⟨hkey, hk⟩ := List.forall_mem_cons.mp hk
    obtain ⟨hpair, h⟩ := List.forall_mem_cons.mp h
    obtain ⟨more, hmore, htext⟩ : ∃ more, commas ((next :: l).map Pair.setting) = more ∧
        commas ((pair :: next :: l).map Pair.setting) ++ ' ' :: '}' :: rest =
          pair.setting ++ ',' :: ' ' :: (more ++ ' ' :: '}' :: rest) :=
      ⟨_, rfl, by simp [commas]⟩
    have hopens : Opens more := hmore ▸ (commas_setting (hk next (List.mem_cons_self ..))).1
    rw [htext] at hn ⊢
    rw [Pair.setting, setting_append] at hn
    simp only [List.length_append, List.length_cons] at hn
    rw [morePairs_comma hkey hopens hpair
      (by simp only [List.length_append, List.length_cons]; omega), ← hmore, ih hk h
      (by rw [hmore]; simp only [List.length_append, List.length_cons]; omega)]
    rfl

/-- An inline table between its braces. -/
def braced (texts : List Text) : Text := '{' :: ' ' :: (commas texts ++ [' ', '}'])

theorem braced_append (texts : List Text) :
    braced texts ++ rest = '{' :: ' ' :: (commas texts ++ ' ' :: '}' :: rest) := by
  simp [braced]

/-- Pairs of different keys, as the table they make. -/
theorem inlineTable_pairs {l : List Pair} {front : Entries}
    (h : (front.map Prod.fst ++ l.map Pair.key).Nodup) :
    inlineTable (l.map fun p => ([p.key], p.value)) front =
      some (front ++ l.map fun p => (p.key, p.value)) := by
  induction l generalizing front with
  | nil => rw [List.map_nil, List.map_nil, List.append_nil, inlineTable]
  | cons pair l ih =>
    have hkey : front.lookup pair.key = none := lookup_eq_none_of_notMem fun hmem =>
      (List.disjoint_of_nodup_append h) hmem (List.mem_cons_self ..)
    have hassign : assignIn [pair.key] pair.value front =
        some (front ++ [(pair.key, pair.value)]) := define_eq hkey
    rw [List.map_cons, inlineTable, hassign, Option.bind_some, ih (by simpa using h)]
    simp

/-- An inline table from its brace on, its first pair there. -/
theorem value_braced {text : Text} (hopens : Opens text) (hclose : text.head? ≠ some '}') :
    value bare (n + 2) ('{' :: ' ' :: (text ++ rest)) =
      (morePairs bare n (text ++ rest)).bind fun read =>
        (inlineTable read.1 []).map fun entries => (.table .inline entries, read.2) := by
  have hblank : skipBlanks (' ' :: (text ++ rest)) = text ++ rest := hopens.skipBlanks
  have hhead : (text ++ rest).head? ≠ some '}' := by
    obtain ⟨c, tail, rfl, -⟩ := hopens
    exact hclose
  rw [value, if_neg (by decide), if_neg (by decide), if_pos rfl, hblank, pairs, if_neg hhead]

/-- **An inline table is read pair by pair**, if its keys are bare and none is there twice. -/
theorem readsAs_inline {pair : Pair} {l : List Pair} (hk : ∀ p ∈ pair :: l, BareKey p.key)
    (hnodup : ((pair :: l).map Pair.key).Nodup)
    (h : ∀ p ∈ pair :: l, ReadsAs bare p.text p.value) :
    ReadsAs bare (braced ((pair :: l).map Pair.setting))
      (.table .inline ((pair :: l).map fun p => (p.key, p.value))) where
  opens := ⟨'{', _, rfl, by decide⟩
  reads n rest hrest hn := by
    rw [braced_append] at hn ⊢
    simp only [List.length_cons] at hn
    obtain ⟨n, rfl⟩ := Nat.exists_eq_add_of_le' (by omega : 2 ≤ n)
    obtain ⟨hopens, hclose⟩ := commas_setting (l := l) (hk pair (List.mem_cons_self ..))
    rw [value_braced hopens hclose, morePairs_commas hk h (by omega), Option.bind_some,
      inlineTable_pairs (by simpa using hnodup)]
    rfl

/-- The first pair of an inline table that is read, whatever follows it. -/
theorem morePairs_first {pair : Pair} {means : Value → Prop} {good : Prop}
    {ps : List (List Text × Value)} {after : Text} (hk : BareKey pair.key)
    (hopens : Opens pair.text) (htells : Tells bare pair.text means good) (hstops : Stops rest)
    (hfollows : Follows rest)
    (hn : 4 * (pair.setting ++ rest).length < n + 2)
    (hread : morePairs bare (n + 2) (pair.setting ++ rest) = some (ps, after))
    (hmeans : ∀ v, ([pair.key], v) ∈ ps → means v) : good := by
  rw [Pair.setting, morePairs_setting hk hopens] at hread
  obtain ⟨⟨v, left⟩, hvalue, hmore⟩ := Option.bind_eq_some_iff.mp hread
  have hfirst : ([pair.key], v) ∈ ps := by
    split_ifs at hmore
    · obtain ⟨_, -, heq⟩ := Option.map_eq_some_iff.mp hmore
      exact (Prod.mk.inj heq).1 ▸ List.mem_cons_self ..
    · exact (Prod.mk.inj (Option.some.inj hmore)).1 ▸ List.mem_cons_self ..
  rw [Pair.setting, setting_append] at hn
  simp only [List.length_append, List.length_cons] at hn
  exact htells _ _ _ _ hstops hfollows (by rw [List.length_append]; omega) hvalue (hmeans v hfirst)

/-- If an inline table is read as what it was meant to be, so is each of its pairs. -/
theorem morePairs_tell {pair : Pair} {l : List Pair} {ps : List (List Text × Value)} {after : Text}
    (hk : ∀ p ∈ pair :: l, BareKey p.key) (hopens : ∀ p ∈ pair :: l, Opens p.text)
    (htells : ∀ p ∈ pair :: l, Tells bare p.text (fun v => v.settled = true → v = p.value)
      (ReadsAs bare p.text p.value))
    (hn : 4 * (commas ((pair :: l).map Pair.setting) ++ ' ' :: '}' :: rest).length + 2 < n)
    (hread : morePairs bare n (commas ((pair :: l).map Pair.setting) ++ ' ' :: '}' :: rest) =
      some (ps, after))
    (hmeans : ∀ p ∈ pair :: l, ReadsAs bare p.text p.value ∨
      ∀ v, ([p.key], v) ∈ ps → v.settled = true → v = p.value) :
    ∀ p ∈ pair :: l, ReadsAs bare p.text p.value := by
  -- the first pair, whatever follows it
  have hfirst : ∀ {n : ℕ} {p : Pair} {tail left : Text} {qs : List (List Text × Value)},
      BareKey p.key → Opens p.text →
      Tells bare p.text (fun v => v.settled = true → v = p.value)
      (ReadsAs bare p.text p.value) → Stops tail → Follows tail →
      4 * (p.setting ++ tail).length < n + 2 →
      morePairs bare (n + 2) (p.setting ++ tail) = some (qs, left) →
      (ReadsAs bare p.text p.value ∨ ∀ v, ([p.key], v) ∈ qs → v.settled = true → v = p.value) →
      ReadsAs bare p.text p.value := fun hkey hopen htell hstops hfollows hlength hmore hmean =>
    hmean.elim id (morePairs_first hkey hopen htell hstops hfollows hlength hmore)
  induction l generalizing pair n ps with
  | nil =>
    obtain ⟨n, rfl⟩ := Nat.exists_eq_add_of_le' (by omega : 2 ≤ n)
    have htext : commas ([pair].map Pair.setting) ++ ' ' :: '}' :: rest =
        pair.setting ++ ' ' :: '}' :: rest := rfl
    rw [htext] at hn hread
    have hpair : pair ∈ [pair] := List.mem_singleton_self pair
    exact List.forall_mem_singleton.mpr <| hfirst (hk _ hpair) (hopens _ hpair) (htells _ hpair)
      (stops_of_cons (.inr (.inr rfl))) (follows_of_cons (.inr (.inr rfl))) (by omega) hread
      (hmeans _ hpair)
  | cons next l ih =>
    obtain ⟨n, rfl⟩ := Nat.exists_eq_add_of_le' (by omega : 2 ≤ n)
    obtain ⟨hkey, hk⟩ := List.forall_mem_cons.mp hk
    obtain ⟨hopen, hopens⟩ := List.forall_mem_cons.mp hopens
    obtain ⟨htell, htells⟩ := List.forall_mem_cons.mp htells
    obtain ⟨hmean, hmeans⟩ := List.forall_mem_cons.mp hmeans
    obtain ⟨more, hmore, htext⟩ : ∃ more, commas ((next :: l).map Pair.setting) = more ∧
        commas ((pair :: next :: l).map Pair.setting) ++ ' ' :: '}' :: rest =
          pair.setting ++ ',' :: ' ' :: (more ++ ' ' :: '}' :: rest) :=
      ⟨_, rfl, by simp [commas]⟩
    rw [htext] at hn hread
    have hpair : ReadsAs bare pair.text pair.value :=
      hfirst hkey hopen htell (stops_of_cons (.inl rfl)) (follows_of_cons (.inl rfl)) (by omega)
        hread hmean
    rw [Pair.setting, setting_append] at hn
    simp only [List.length_append, List.length_cons] at hn
    rw [morePairs_comma hkey (hmore ▸ (commas_setting (hk next (List.mem_cons_self ..))).1) hpair
      (by simp only [List.length_append, List.length_cons]; omega), ← hmore] at hread
    obtain ⟨⟨qs, left⟩, hpairs, heq⟩ := Option.map_eq_some_iff.mp hread
    obtain ⟨rfl, rfl⟩ := Prod.mk.inj heq
    refine List.forall_mem_cons.mpr ⟨hpair, ih hk hopens htells
      (by rw [hmore]; simp only [List.length_append, List.length_cons]; omega) hpairs
      fun p hp => (hmeans p hp).imp_right fun hvalue v hmem =>
        hvalue v (List.mem_cons_of_mem _ hmem)⟩

/-- An inline table is read as what it was meant to be only if each of its pairs is. -/
theorem tells_inline {pair : Pair} {l : List Pair} {means : Value → Prop}
    (hk : ∀ p ∈ pair :: l, BareKey p.key) (hopens : ∀ p ∈ pair :: l, Opens p.text)
    (htells : ∀ p ∈ pair :: l, Tells bare p.text (fun v => v.settled = true → v = p.value)
      (ReadsAs bare p.text p.value))
    (hmeans : ∀ entries, means (.table .inline entries) → ∀ p ∈ pair :: l,
      ReadsAs bare p.text p.value ∨
        ∀ v, entries.lookup p.key = some v → v = p.value) :
    Tells bare (braced ((pair :: l).map Pair.setting)) means
      (∀ p ∈ pair :: l, ReadsAs bare p.text p.value) := by
  intro n rest v after hstops hfollows hn hread hv
  rw [braced_append] at hn hread
  simp only [List.length_cons] at hn
  obtain ⟨n, rfl⟩ := Nat.exists_eq_add_of_le' (by omega : 2 ≤ n)
  obtain ⟨hopen, hclose⟩ := commas_setting (l := l) (hk pair (List.mem_cons_self ..))
  rw [value_braced hopen hclose] at hread
  obtain ⟨⟨ps, left⟩, hpairs, hread⟩ := Option.bind_eq_some_iff.mp hread
  obtain ⟨entries, htable, heq⟩ := Option.map_eq_some_iff.mp hread
  obtain ⟨rfl, -⟩ := Prod.mk.inj heq
  exact morePairs_tell hk hopens htells (by omega) hpairs fun p hp =>
    (hmeans entries hv p hp).imp_right fun hvalue v hmem hsettled =>
      hvalue v (lookup_of_mem_pairs hsettled htable hmem)

end Toml
