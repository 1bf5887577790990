import Distlib.Core.Id
import Distlib.Lib.TomlWritten

/-!
# Socket addresses as text

How a socket address is shown and read: an IPv4 address in dotted decimals, an
IPv6 address in brackets, with its scope if it has one, and the port behind a
colon. The flow information of an IPv6 address is not shown, so it is not read
back (`parse_print`): what is read is the address as it was `shown`.

The text of an IPv6 address alone is the standard library's business and a
parameter here, with what is relied on as its laws.
-/

namespace Distlib

open Toml (Text Plain)

/-- How an IPv6 address is written and read. -/
structure Ipv6Text where
  print : BitVec 128 → Text
  parse : Text → Option (BitVec 128)
  /-- what is written is read back -/
  parse_print : ∀ ip, parse (print ip) = some ip
  /-- hex digits, colons and dots -/
  chars : ∀ ip, ∀ c ∈ print ip, (Toml.hexDigit? c).isSome = true ∨ c = ':' ∨ c = '.'

/-- A number in decimal. -/
def digits (n : ℕ) : Text := Nat.toDigits 10 n

/-- A decimal number below a bound. -/
def parseNumber (bound : ℕ) (text : Text) : Option ℕ :=
  if text ≠ [] ∧ text.all Char.isDigit = true ∧ Nat.ofDigitChars 10 text 0 < bound then
    some (Nat.ofDigitChars 10 text 0)
  else none

/-- One of the four numbers of an IPv4 address: no zero goes before its other digits. -/
def parseOctet (text : Text) : Option ℕ :=
  if text.head? = some '0' ∧ text ≠ ['0'] then none else parseNumber 256 text

theorem isDigit_of_mem_digits {n : ℕ} {c : Char} (h : c ∈ digits n) : c.isDigit :=
  Nat.isDigit_of_mem_toDigits (by decide) le_rfl h

/-- What is no digit ends a number. -/
theorem notMem_digits {n : ℕ} {c : Char} (hc : c.isDigit = false) : c ∉ digits n := fun hmem => by
  rw [isDigit_of_mem_digits hmem] at hc
  cases hc

/-- A number below the bound is read back. -/
theorem parseNumber_digits {bound n : ℕ} (h : n < bound) : parseNumber bound (digits n) = some n := by
  have hvalue : Nat.ofDigitChars 10 (digits n) 0 = n := Nat.ofDigitChars_ten_toDigits
  rw [parseNumber, hvalue, if_pos]
  exact ⟨Nat.toDigits_ne_nil, List.all_eq_true.mpr fun c hc => isDigit_of_mem_digits hc, h⟩

/-- Decimals are written without leading zeros, so an IPv4 address takes them for its numbers. -/
theorem parseOctet_digits {n : ℕ} (h : n < 256) : parseOctet (digits n) = some n := by
  rw [parseOctet, if_neg, parseNumber_digits h]
  rintro ⟨hzero, hmore⟩
  obtain ⟨tail, htail⟩ : ∃ tail, digits n = '0' :: tail := by
    cases hdigits : digits n with
    | nil => rw [hdigits] at hzero; cases hzero
    | cons c tail =>
      rw [hdigits] at hzero
      obtain rfl := Option.some.inj hzero
      exact ⟨tail, rfl⟩
  exact hmore (Toml.toDigits_zero_cons htail)

namespace SocketAddr

/-- The four numbers of an IPv4 address. -/
def octets (ip : BitVec 32) : List ℕ :=
  [ip.toNat / 2 ^ 24, ip.toNat / 2 ^ 16 % 256, ip.toNat / 2 ^ 8 % 256, ip.toNat % 256]

def ofOctets (a b c d : ℕ) : BitVec 32 := BitVec.ofNat 32 (((a * 256 + b) * 256 + c) * 256 + d)

/-- A scope, unless there is none. -/
def printScope (scope : UInt32) : Text := if scope = 0 then [] else '%' :: digits scope.toNat

/-- An address as it is shown. -/
def print (ipv6 : Ipv6Text) : SocketAddr → Text
  | .v4 ip port => ['.'].intercalate ((octets ip).map digits) ++ ':' :: digits port.toNat
  | .v6 ip port _ scope =>
    '[' :: (ipv6.print ip ++ printScope scope ++ ']' :: ':' :: digits port.toNat)

def parseV4 (text : Text) : Option SocketAddr :=
  match text.splitOn ':' with
  | [ip, port] =>
    match (ip.splitOn '.').mapM parseOctet with
    | some [a, b, c, d] =>
      (parseNumber (2 ^ 16) port).map fun port => .v4 (ofOctets a b c d) (UInt16.ofNat port)
    | _ => none
  | _ => none

/-- The address and the scope between the brackets. -/
def parseScoped (ipv6 : Ipv6Text) (text : Text) : Option (BitVec 128 × UInt32) :=
  match text.splitOn '%' with
  | [ip] => (ipv6.parse ip).map fun ip => (ip, 0)
  | [ip, scope] =>
    (ipv6.parse ip).bind fun ip =>
      (parseNumber (2 ^ 32) scope).map fun scope => (ip, UInt32.ofNat scope)
  | _ => none

/-- An IPv6 address behind its bracket, and its port. -/
def parseV6 (ipv6 : Ipv6Text) (text : Text) : Option SocketAddr :=
  match text.splitOn ']' with
  | [inside, tail] =>
    if tail.head? = some ':' then
      (parseScoped ipv6 inside).bind fun read =>
        (parseNumber (2 ^ 16) tail.tail).map fun port =>
          .v6 read.1 (UInt16.ofNat port) 0 read.2
    else none
  | _ => none

/-- An address from its text. -/
def parse (ipv6 : Ipv6Text) (text : Text) : Option SocketAddr :=
  if text.head? = some '[' then parseV6 ipv6 text.tail else parseV4 text

/-- An address as far as its text shows it. -/
def shown : SocketAddr → SocketAddr
  | .v4 ip port => .v4 ip port
  | .v6 ip port _ scope => .v6 ip port 0 scope

variable {ipv6 : Ipv6Text}

theorem lt_of_mem_octets {ip : BitVec 32} {n : ℕ} (h : n ∈ octets ip) : n < 256 := by
  have hlt : ip.toNat < 2 ^ 32 := ip.isLt
  simp only [octets, List.mem_cons, List.not_mem_nil, or_false] at h
  omega

/-- An IPv4 address is put together from its four numbers. -/
theorem ofOctets_octets (ip : BitVec 32) :
    ofOctets (ip.toNat / 2 ^ 24) (ip.toNat / 2 ^ 16 % 256) (ip.toNat / 2 ^ 8 % 256)
      (ip.toNat % 256) = ip := by
  have hlt : ip.toNat < 2 ^ 32 := ip.isLt
  apply BitVec.eq_of_toNat_eq
  rw [ofOctets, BitVec.toNat_ofNat]
  omega

/-- An IPv4 address and its port are read back: there are dots in it, and no bracket, and it
ends at the colon. -/
theorem parseV4_print (ip : BitVec 32) (port : UInt16) :
    parseV4 (print ipv6 (.v4 ip port)) = some (.v4 ip port) := by
  have hdot : ∀ text ∈ (octets ip).map digits, '.' ∉ text := by
    rintro _ hmem
    obtain ⟨n, -, rfl⟩ := List.mem_map.mp hmem
    exact notMem_digits (by decide)
  have hcolon : ':' ∉ ['.'].intercalate ((octets ip).map digits) := by
    simp only [octets, List.map_cons, List.map_nil, List.intercalate, List.intersperse,
      List.flatten_cons, List.flatten_nil, List.mem_append, List.mem_singleton, not_or]
    refine ⟨?_, ?_, ?_, ?_, ?_, ?_, ?_, ?_⟩ <;> first | exact notMem_digits (by decide) | decide
  have hsplit : (print ipv6 (.v4 ip port)).splitOn ':' =
      [['.'].intercalate ((octets ip).map digits), digits port.toNat] := by
    rw [print, List.splitOn_append_cons_self_of_not_mem hcolon,
      List.splitOn_eq_singleton (notMem_digits (by decide))]
  have hoctets : ((['.'].intercalate ((octets ip).map digits)).splitOn '.').mapM parseOctet =
      some (octets ip) := by
    rw [List.splitOn_intercalate '.' hdot (by simp [octets]), List.mapM_map]
    exact (Toml.mapM_eq_map (g := id) fun n hn => parseOctet_digits (lt_of_mem_octets hn)).trans
      (by rw [List.map_id])
  have hport : port.toNat < 2 ^ 16 := port.toNat_lt
  rw [parseV4, hsplit]
  dsimp only
  rw [hoctets]
  simp only [octets]
  rw [parseNumber_digits hport, Option.map_some, ofOctets_octets, UInt16.ofNat_toNat]

/-- Only hex digits, colons and dots are in an IPv6 address, so the sign of a scope and the
bracket are ends of it. -/
theorem notMem_ipv6 {ip : BitVec 128} {c : Char} (hhex : Toml.hexDigit? c = none) (hcolon : c ≠ ':')
    (hdot : c ≠ '.') : c ∉ ipv6.print ip := fun hmem => by
  rcases ipv6.chars ip c hmem with h | h | h
  · rw [hhex] at h
    cases h
  · exact hcolon h
  · exact hdot h

/-- A scope of zero is not written, and none is read as zero. -/
theorem parseScoped_print (ip : BitVec 128) (scope : UInt32) :
    parseScoped ipv6 (ipv6.print ip ++ printScope scope) = some (ip, scope) := by
  have hpercent : '%' ∉ ipv6.print ip := notMem_ipv6 (by decide) (by decide) (by decide)
  rw [parseScoped, printScope]
  split_ifs with hscope
  · rw [List.append_nil, List.splitOn_eq_singleton hpercent]
    dsimp only
    rw [ipv6.parse_print, hscope]
    rfl
  · have hlt : scope.toNat < 2 ^ 32 := scope.toNat_lt
    rw [List.splitOn_append_cons_self_of_not_mem hpercent,
      List.splitOn_eq_singleton (notMem_digits (by decide))]
    dsimp only
    rw [ipv6.parse_print, Option.bind_some, parseNumber_digits hlt, Option.map_some,
      UInt32.ofNat_toNat]

/-- Behind its bracket an IPv6 address is read back to the last one, with no flow information. -/
theorem parseV6_print (ip : BitVec 128) (port : UInt16) (scope : UInt32) :
    parseV6 ipv6 (ipv6.print ip ++ printScope scope ++ ']' :: ':' :: digits port.toNat) =
      some (.v6 ip port 0 scope) := by
  have hscope : ']' ∉ printScope scope := by
    rw [printScope]
    split_ifs
    · exact List.not_mem_nil
    · exact List.not_mem_cons_of_ne_of_not_mem (by decide) (notMem_digits (by decide))
  have hbracket : ']' ∉ ipv6.print ip ++ printScope scope := fun hmem =>
    (List.mem_append.mp hmem).elim (notMem_ipv6 (by decide) (by decide) (by decide)) hscope
  have hport : port.toNat < 2 ^ 16 := port.toNat_lt
  rw [parseV6, List.splitOn_append_cons_self_of_not_mem hbracket, List.splitOn_eq_singleton
    (List.not_mem_cons_of_ne_of_not_mem (by decide) (notMem_digits (by decide)))]
  dsimp only
  rw [List.head?_cons, if_pos rfl, parseScoped_print, Option.bind_some, List.tail_cons,
    parseNumber_digits hport, Option.map_some, UInt16.ofNat_toNat]

/-- **An address is read back as it is shown**: without its flow information. -/
theorem parse_print (addr : SocketAddr) : parse ipv6 (print ipv6 addr) = some addr.shown := by
  cases addr with
  | v4 ip port =>
    have hhead : (print ipv6 (.v4 ip port)).head? ≠ some '[' := by
      obtain ⟨tail, hprint⟩ : ∃ tail,
          print ipv6 (.v4 ip port) = digits (ip.toNat / 2 ^ 24) ++ tail := by
        simp only [print, octets, List.map_cons, List.intercalate, List.intersperse,
          List.flatten_cons, List.append_assoc]
        exact ⟨_, rfl⟩
      obtain ⟨c, more, hdigits⟩ : ∃ c more, digits (ip.toNat / 2 ^ 24) = c :: more :=
        List.exists_cons_of_ne_nil Nat.toDigits_ne_nil
      have hc : c.isDigit := isDigit_of_mem_digits (hdigits ▸ List.mem_cons_self ..)
      rw [hprint, hdigits]
      rintro h
      obtain rfl := Option.some.inj h
      exact absurd hc (by decide)
    rw [parse, if_neg hhead, parseV4_print]
    rfl
  | v6 ip port flow scope =>
    rw [parse, print, List.head?_cons, if_pos rfl, List.tail_cons, parseV6_print]
    rfl

theorem plain_of_hexDigit {c : Char} (h : (Toml.hexDigit? c).isSome = true) :
    c ≠ '"' ∧ c ≠ '\\' ∧ Toml.isControl c = false := by
  refine ⟨?_, ?_, ?_⟩
  · rintro rfl
    exact absurd h (by decide)
  · rintro rfl
    exact absurd h (by decide)
  · have hrange : 48 ≤ c.toNat ∧ c.toNat ≤ 102 := by
      rw [Toml.hexDigit?] at h
      split_ifs at h with hdigit hlower hupper
      · exact ⟨hdigit.1, (show c.toNat ≤ 57 from hdigit.2).trans (by decide)⟩
      · exact ⟨Nat.le_trans (by decide) (show 97 ≤ c.toNat from hlower.1), hlower.2⟩
      · exact ⟨Nat.le_trans (by decide) (show 65 ≤ c.toNat from hupper.1),
          (show c.toNat ≤ 70 from hupper.2).trans (by decide)⟩
      · cases h
    have hlow : ¬ c.toNat < 32 := by omega
    have hhigh : ¬ c.toNat = 127 := by omega
    simp [Toml.isControl, hlow, hhigh]

/-- Digits are plain. -/
theorem plain_digits (n : ℕ) : Plain (digits n) := fun c hc => by
  have hdigit := Toml.hexDigit?_of_isDigit (isDigit_of_mem_digits hc)
  refine plain_of_hexDigit ?_
  cases h : Toml.hexDigit? c with
  | none => rw [h] at hdigit; cases hdigit
  | some d => rfl

/-- And so are the characters of an IPv6 address. -/
theorem plain_ipv6 (ip : BitVec 128) : Plain (ipv6.print ip) := fun c hc => by
  rcases ipv6.chars ip c hc with h | rfl | rfl
  · exact plain_of_hexDigit h
  · decide
  · decide

/-- The text of an address may stand between quotes as it is. -/
theorem plain_print (addr : SocketAddr) : Plain (print ipv6 addr) := by
  have hport : ∀ port : UInt16, Plain (':' :: digits port.toNat) := fun port =>
    Toml.plain_cons.mpr ⟨by decide, plain_digits _⟩
  cases addr with
  | v4 ip port =>
    refine Toml.plain_append.mpr ⟨?_, hport port⟩
    simp only [octets, List.map_cons, List.map_nil, List.intercalate, List.intersperse,
      List.flatten_cons, List.flatten_nil, Toml.plain_append]
    exact ⟨plain_digits _, by decide, plain_digits _, by decide, plain_digits _, by decide,
      plain_digits _, by decide⟩
  | v6 ip port flow scope =>
    have hscope : Plain (printScope scope) := by
      rw [printScope]
      split_ifs
      · exact List.forall_mem_nil _
      · exact Toml.plain_cons.mpr ⟨by decide, plain_digits _⟩
    exact Toml.plain_cons.mpr ⟨by decide, Toml.plain_append.mpr
      ⟨Toml.plain_append.mpr ⟨plain_ipv6 ip, hscope⟩,
        Toml.plain_cons.mpr ⟨by decide, hport port⟩⟩⟩

end SocketAddr

end Distlib
