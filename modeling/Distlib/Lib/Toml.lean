import Mathlib

/-!
# Reading TOML

What a text says by the rules of TOML 1.0. A text is lines of comments, headers
and assignments. The reader turns it into statements first, which is a matter of
characters, and then carries them out one after the other, which is where a key
that has been given its value may not be given another.

Integers are the signed ones of 64 bits, as the rules ask; anything larger is an
error. What a bare word means that is neither a boolean nor an integer, a float
or a time, is left to `bare`, which takes it off the front of a text: nothing
below looks inside one.
-/

namespace Toml

/-- A text, as its characters. -/
abbrev Text := List Char

/-- How a table came to be, which decides who may still add to it. -/
inductive Made where
  /-- written between braces, and closed with them -/
  | inline
  /-- named by a header -/
  | header
  /-- on the way to a table that a header names -/
  | implied
  /-- on the way to a dotted key -/
  | dotted
  deriving DecidableEq

/-- What a key stands for. -/
inductive Value : Type where
  | string : Text → Value
  | integer : ℤ → Value
  | boolean : Bool → Value
  /-- a float or a time, as it is written -/
  | other : Text → Value
  /-- an array; one of tables grows with every header that names it -/
  | array : Bool → List Value → Value
  | table : Made → List (Text × Value) → Value

/-- What a table holds. -/
abbrev Entries := List (Text × Value)

/-- One thing a text says. -/
inductive Statement : Type where
  /-- `[a.b]` -/
  | header : List Text → Statement
  /-- `[[a.b]]` -/
  | element : List Text → Statement
  /-- `a.b = value` -/
  | assign : List Text → Value → Statement

/-! ## Between the words -/

def isBlank (c : Char) : Bool := c == ' ' || c == '\t'

/-- A character that may stand nowhere but at the end of a line. -/
def isControl (c : Char) : Bool := (c.toNat < 32 && c != '\t') || c.toNat == 127

def skipBlanks (text : Text) : Text := text.dropWhile isBlank

/-- What follows the end of a line. -/
def newline : Text → Option Text
  | [] => none
  | c :: rest =>
    if c = '\n' then some rest
    else if c = '\r' ∧ rest.head? = some '\n' then some rest.tail
    else none

/-- What follows a comment. -/
def skipComment : Text → Option Text
  | [] => some []
  | c :: rest =>
    match newline (c :: rest) with
    | some after => some after
    | none => if isControl c then none else skipComment rest

/-- What follows a line on which everything has been said. -/
def lineEnd (text : Text) : Option Text :=
  match skipBlanks text with
  | [] => some []
  | c :: rest => if c = '#' then skipComment rest else newline (c :: rest)

/-- What follows the blanks, comments and line ends between the items of an array. -/
def skipSpace : ℕ → Text → Option Text
  | 0, _ => none
  | fuel + 1, text =>
    match skipBlanks text with
    | [] => some []
    | c :: rest =>
      if c = '#' then (skipComment rest).bind (skipSpace fuel)
      else
        match newline (c :: rest) with
        | some after => skipSpace fuel after
        | none => some (c :: rest)

/-! ## Strings -/

def hexDigit? (c : Char) : Option ℕ :=
  if '0' ≤ c ∧ c ≤ '9' then some (c.toNat - 48)
  else if 'a' ≤ c ∧ c ≤ 'f' then some (c.toNat - 87)
  else if 'A' ≤ c ∧ c ≤ 'F' then some (c.toNat - 55)
  else none

/-- The number that the next `len` digits spell, behind what has been read. -/
def hexDigits : ℕ → ℕ → Text → Option (ℕ × Text)
  | 0, n, text => some (n, text)
  | _ + 1, _, [] => none
  | len + 1, n, c :: rest => (hexDigit? c).bind fun digit => hexDigits len (16 * n + digit) rest

/-- The character with the number that the next `len` digits spell. -/
def code (len : ℕ) (text : Text) : Option (Text × Text) :=
  (hexDigits len 0 text).bind fun read =>
    if read.1.isValidChar then some ([Char.ofNat read.1], read.2) else none

/-- A text without the blanks and line ends it starts with. -/
def trim : Text → Text
  | [] => []
  | c :: rest =>
    if isBlank c || c == '\n' || (c == '\r' && rest.head? == some '\n') then trim rest
    else c :: rest

/-- What a backslash makes of the text behind it. At the end of a line, in a
string of several, it takes away everything up to the next word. -/
def escape (multi : Bool) : Text → Option (Text × Text)
  | [] => none
  | c :: rest =>
    if c = 'b' then some ([Char.ofNat 8], rest)
    else if c = 't' then some (['\t'], rest)
    else if c = 'n' then some (['\n'], rest)
    else if c = 'f' then some ([Char.ofNat 12], rest)
    else if c = 'r' then some (['\r'], rest)
    else if c = '"' then some (['"'], rest)
    else if c = '\\' then some (['\\'], rest)
    else if c = 'u' then code 4 rest
    else if c = 'U' then code 8 rest
    else if multi then (newline (skipBlanks (c :: rest))).map fun after => ([], trim after)
    else none

/-- The next piece of a string. -/
inductive Piece : Type where
  /-- the end of it, after some last quotes -/
  | close : Text → Text → Piece
  /-- more of it -/
  | emit : Text → Text → Piece

/-- Quotes in a string of several lines: three of them end it, and up to two
more may stand before those. -/
def quotes (q : Char) (text : Text) : Piece :=
  let run := (text.takeWhile (· == q)).length
  if run < 3 then .emit [q] text.tail
  else .close (List.replicate (min (run - 3) 2) q) (text.drop (min run 5))

/-- The next piece of a string that `q` quotes. -/
def piece (q : Char) (multi : Bool) : Text → Option Piece
  | [] => none
  | c :: rest =>
    if c = q then
      if multi then some (quotes q (c :: rest)) else some (.close [] rest)
    else if c = '\\' ∧ q = '"' then
      (escape multi rest).map fun read => .emit read.1 read.2
    else if multi ∧ (newline (c :: rest)).isSome then
      (newline (c :: rest)).map (.emit ['\n'])
    else if isControl c then none
    else some (.emit [c] rest)

/-- A string from behind its opening quote. -/
def body (q : Char) (multi : Bool) : ℕ → Text → Option (Text × Text)
  | 0, _ => none
  | fuel + 1, text =>
    match piece q multi text with
    | none => none
    | some (.close extra rest) => some (extra, rest)
    | some (.emit part rest) =>
      (body q multi fuel rest).map fun read => (part ++ read.1, read.2)

/-- A string from its opening quote, or from its three. The line end right
behind three is no part of the string. -/
def quoted (fuel : ℕ) : Text → Option (Text × Text)
  | [] => none
  | q :: rest =>
    if [q, q].isPrefixOf rest then
      body q true fuel ((newline (rest.drop 2)).getD (rest.drop 2))
    else body q false fuel rest

/-! ## Bare words -/

def isBare (c : Char) : Bool := c.isAlphanum || c == '_' || c == '-'

def isWord (c : Char) : Bool := isBare c || c == '+' || c == '.' || c == ':'

/-- The number some digits spell in a base, with underscores between them. -/
def grouped (base : ℕ) (word : Text) : Option ℕ :=
  if (word.splitOn '_').all (fun group => !group.isEmpty) then
    ((word.filter (· != '_')).mapM fun c => (hexDigit? c).filter (· < base)).map
      fun digits => digits.foldl (fun n digit => base * n + digit) 0
  else none

/-- A number in base ten: no zero goes before its other digits. -/
def decimal (word : Text) : Option ℕ :=
  if word.head? = some '0' ∧ word ≠ ['0'] then none else grouped 10 word

def number : Text → Option ℤ
  | [] => none
  | c :: rest =>
    if c = '+' then (decimal rest).map (↑·)
    else if c = '-' then (decimal rest).map fun n => -(n : ℤ)
    else if c = '0' ∧ rest.head? = some 'x' then (grouped 16 rest.tail).map (↑·)
    else if c = '0' ∧ rest.head? = some 'o' then (grouped 8 rest.tail).map (↑·)
    else if c = '0' ∧ rest.head? = some 'b' then (grouped 2 rest.tail).map (↑·)
    else (decimal (c :: rest)).map (↑·)

/-- A value that is a bare word. -/
def scalar (bare : Text → Option (Value × Text)) (text : Text) : Option (Value × Text) :=
  let word := text.takeWhile isWord
  let rest := text.dropWhile isWord
  if word = ['t', 'r', 'u', 'e'] then some (.boolean true, rest)
  else if word = ['f', 'a', 'l', 's', 'e'] then some (.boolean false, rest)
  else
    match number word with
    | some n => if -2 ^ 63 ≤ n ∧ n < 2 ^ 63 then some (.integer n, rest) else none
    | none => bare text

/-! ## Keys -/

/-- One part of a key. -/
def simpleKey (fuel : ℕ) : Text → Option (Text × Text)
  | [] => none
  | c :: rest =>
    if c = '"' ∨ c = '\'' then body c false fuel rest
    else if isBare c then some ((c :: rest).takeWhile isBare, (c :: rest).dropWhile isBare)
    else none

/-- A key, and the blanks behind it. -/
def key : ℕ → Text → Option (List Text × Text)
  | 0, _ => none
  | fuel + 1, text =>
    (simpleKey fuel text).bind fun read =>
      match skipBlanks read.2 with
      | [] => some ([read.1], [])
      | c :: rest =>
        if c = '.' then
          (key fuel (skipBlanks rest)).map fun more => (read.1 :: more.1, more.2)
        else some ([read.1], c :: rest)

/-! ## Tables -/

/-- Gives another value to a key that is there. -/
def put (k : Text) (value : Value) : Entries → Entries
  | [] => []
  | entry :: rest => if entry.1 = k then (k, value) :: rest else entry :: put k value rest

/-- Whether a table may be entered on the way to another: by a header, unless it
is closed; by a dotted key, if dotted keys made it. -/
def Made.admits (way made : Made) : Bool :=
  if way = .dotted then made == .dotted else made != .inline

/-- Does something to the table at the end of a path, making the tables that are
missing on the way. A header that passes an array of tables means its last. -/
def within (way : Made) (act : Entries → Option Entries) : List Text → Entries → Option Entries
  | [], entries => act entries
  | k :: path, entries =>
    match entries.lookup k with
    | none => (within way act path []).map fun inner => entries ++ [(k, .table way inner)]
    | some (.table made inner) =>
      if way.admits made then
        (within way act path inner).map fun inner => put k (.table made inner) entries
      else none
    | some (.array true items) =>
      match way, items.getLast? with
      | .implied, some (.table made inner) =>
        (within way act path inner).map fun inner =>
          put k (.array true (items.dropLast ++ [.table made inner])) entries
      | _, _ => none
    | some _ => none

/-- What `[.. k]` does to the table it is in. -/
def openTable (k : Text) (entries : Entries) : Option Entries :=
  match entries.lookup k with
  | none => some (entries ++ [(k, .table .header [])])
  | some (.table .implied inner) => some (put k (.table .header inner) entries)
  | some _ => none

/-- What `[[.. k]]` does to the table it is in. -/
def addElement (k : Text) (entries : Entries) : Option Entries :=
  match entries.lookup k with
  | none => some (entries ++ [(k, .array true [.table .header []])])
  | some (.array true items) => some (put k (.array true (items ++ [.table .header []])) entries)
  | some _ => none

/-- What `k = value` does to the table it is in. -/
def define (k : Text) (value : Value) (entries : Entries) : Option Entries :=
  match entries.lookup k with
  | none => some (entries ++ [(k, value)])
  | some _ => none

/-- What `path = value` does to the table it is in. -/
def assignIn (path : List Text) (value : Value) (entries : Entries) : Option Entries :=
  path.getLast?.bind fun k => within .dotted (define k value) path.dropLast entries

/-- The table that some assignments between braces make. -/
def inlineTable : List (List Text × Value) → Entries → Option Entries
  | [], entries => some entries
  | pair :: rest, entries => (assignIn pair.1 pair.2 entries).bind (inlineTable rest)

/-- Carries a statement out: the table it leaves open, and the whole. -/
def Statement.apply (current : List Text) (root : Entries) :
    Statement → Option (List Text × Entries)
  | .header path =>
    path.getLast?.bind fun k =>
      (within .implied (openTable k) path.dropLast root).map fun root => (path, root)
  | .element path =>
    path.getLast?.bind fun k =>
      (within .implied (addElement k) path.dropLast root).map fun root => (path, root)
  | .assign path value =>
    (within .implied (assignIn path value) current root).map fun root => (current, root)

/-- Carries statements out in turn. -/
def assemble : List Text → Entries → List Statement → Option (List Text × Entries)
  | current, root, [] => some (current, root)
  | current, root, statement :: rest =>
    (statement.apply current root).bind fun state => assemble state.1 state.2 rest

/-! ## Values and statements -/

mutual

/-- A value, from its first character. -/
def value (bare : Text → Option (Value × Text)) : ℕ → Text → Option (Value × Text)
  | 0, _ => none
  | _ + 1, [] => none
  | fuel + 1, c :: rest =>
    if c = '"' ∨ c = '\'' then
      (quoted fuel (c :: rest)).map fun read => (.string read.1, read.2)
    else if c = '[' then
      (items bare fuel rest).map fun read => (.array false read.1, read.2)
    else if c = '{' then
      (pairs bare fuel (skipBlanks rest)).bind fun read =>
        (inlineTable read.1 []).map fun entries => (.table .inline entries, read.2)
    else scalar bare (c :: rest)

/-- The items of an array, from behind its bracket or a comma. -/
def items (bare : Text → Option (Value × Text)) : ℕ → Text → Option (List Value × Text)
  | 0, _ => none
  | fuel + 1, text =>
    (skipSpace fuel text).bind fun text =>
      if text.head? = some ']' then some ([], text.tail)
      else
        (value bare fuel text).bind fun first =>
          (skipSpace fuel first.2).bind fun rest =>
            if rest.head? = some ',' then
              (items bare fuel rest.tail).map fun read => (first.1 :: read.1, read.2)
            else if rest.head? = some ']' then some ([first.1], rest.tail)
            else none

/-- The assignments of an inline table, from behind its brace. -/
def pairs (bare : Text → Option (Value × Text)) :
    ℕ → Text → Option (List (List Text × Value) × Text)
  | 0, _ => none
  | fuel + 1, text =>
    if text.head? = some '}' then some ([], text.tail) else morePairs bare fuel text

/-- The assignments of an inline table from one of them on. -/
def morePairs (bare : Text → Option (Value × Text)) :
    ℕ → Text → Option (List (List Text × Value) × Text)
  | 0, _ => none
  | fuel + 1, text =>
    (key fuel text).bind fun name =>
      if name.2.head? = some '=' then
        (value bare fuel (skipBlanks name.2.tail)).bind fun read =>
          if (skipBlanks read.2).head? = some ',' then
            (morePairs bare fuel (skipBlanks (skipBlanks read.2).tail)).map fun more =>
              ((name.1, read.1) :: more.1, more.2)
          else if (skipBlanks read.2).head? = some '}' then
            some ([(name.1, read.1)], (skipBlanks read.2).tail)
          else none
      else none

end

/-- A header or an assignment, from its first character. -/
def statement (bare : Text → Option (Value × Text)) (fuel : ℕ) (text : Text) :
    Option (Statement × Text) :=
  if ['[', '['].isPrefixOf text then
    (key fuel (skipBlanks (text.drop 2))).bind fun name =>
      if [']', ']'].isPrefixOf name.2 then some (.element name.1, name.2.drop 2) else none
  else if text.head? = some '[' then
    (key fuel (skipBlanks text.tail)).bind fun name =>
      if name.2.head? = some ']' then some (.header name.1, name.2.tail) else none
  else
    (key fuel text).bind fun name =>
      if name.2.head? = some '=' then
        (value bare fuel (skipBlanks name.2.tail)).map fun read =>
          (.assign name.1 read.1, read.2)
      else none

/-- What a text says, statement after statement. -/
def statements (bare : Text → Option (Value × Text)) : ℕ → Text → Option (List Statement)
  | 0, _ => none
  | fuel + 1, text =>
    match skipBlanks text with
    | [] => some []
    | c :: rest =>
      if c = '#' then (skipComment rest).bind (statements bare fuel)
      else
        match newline (c :: rest) with
        | some after => statements bare fuel after
        | none =>
          (statement bare fuel (c :: rest)).bind fun first =>
            (lineEnd first.2).bind fun after =>
              (statements bare fuel after).map (first.1 :: ·)

/-- **The table a text describes.** Every step of the reader takes at least one
character off the text, and at most three steps stand between two characters. -/
def read (bare : Text → Option (Value × Text)) (text : Text) : Option Entries :=
  (statements bare (4 * text.length + 4) text).bind fun all =>
    (assemble [] [] all).map Prod.snd

end Toml
