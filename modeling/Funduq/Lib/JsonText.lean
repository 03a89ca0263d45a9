import Funduq.Lib.Dict
import Funduq.Lib.Python

/-!
# JSON as text

`json.dumps` of a dictionary of strings and integers, and `json.loads` of any bytes.  The
writer is all ASCII: what is not printable it writes as `\u` escapes, a character beyond
`U+FFFF` as two of them.  The reader takes every JSON text, in any of its encodings, and
reads back what the writer wrote (`loads_dumps`).

A float stays the text it was written as.
-/

namespace Funduq.Lib.JsonText

open Python

/-- What `json.loads` returns. -/
inductive Value where
  | null
  | bool (b : Bool)
  | int (n : Int)
  | float (text : Str)
  | str (s : Str)
  | list (items : List Value)
  | dict (members : List (Str × Value))

/-! ## Reading -/

def isWs (c : CodePoint) : Bool :=
  c = .char ' ' || c = .char '\t' || c = .char '\n' || c = .char '\r'

/-- `WHITESPACE.match`. -/
def skipWs (s : Str) : Str := s.dropWhile isWs

def isDigit : CodePoint → Bool
  | .char c => c.isDigit
  | .surrogate _ => false

def hexDigit? : CodePoint → Option Nat
  | .char c =>
      if '0' ≤ c ∧ c ≤ '9' then some (c.toNat - 48)
      else if 'a' ≤ c ∧ c ≤ 'f' then some (c.toNat - 87)
      else if 'A' ≤ c ∧ c ≤ 'F' then some (c.toNat - 55)
      else none
  | .surrogate _ => none

/-- `_decode_uXXXX`. -/
def decodeU : Str → Option (Nat × Str)
  | a :: b :: c :: d :: s => do
      let a ← hexDigit? a
      let b ← hexDigit? b
      let c ← hexDigit? c
      let d ← hexDigit? d
      return (((a * 16 + b) * 16 + c) * 16 + d, s)
  | _ => none

/-- The number of a `\u` escape; two of them may be one character. -/
def scanU (s : Str) : Option (Nat × Str) := do
  let (high, s) ← decodeU s
  if isHigh high then
    match s with
    | .char '\\' :: .char 'u' :: t =>
        let (low, t) ← decodeU t
        return if isLow low then (join high low, t) else (high, s)
    | _ => return (high, s)
  else return (high, s)

/-- `BACKSLASH`. -/
def backslash : CodePoint → Option CodePoint
  | .char '"' => some (.char '"')
  | .char '\\' => some (.char '\\')
  | .char '/' => some (.char '/')
  | .char 'b' => some (.char '\x08')
  | .char 'f' => some (.char '\x0c')
  | .char 'n' => some (.char '\n')
  | .char 'r' => some (.char '\r')
  | .char 't' => some (.char '\t')
  | _ => none

/-- `scanstring`, after the opening quote: the string, and what comes after it. -/
def scanString : Nat → Str → Option (Str × Str)
  | 0, _ => none
  | _ + 1, [] => none
  | n + 1, c :: s =>
      if c = .char '"' then some ([], s)
      else if c = .char '\\' then
        match s with
        | [] => none
        | e :: s =>
            if e = .char 'u' then do
              let (code, s) ← scanU s
              let c ← CodePoint.ofNat? code
              let (rest, s) ← scanString n s
              return (c :: rest, s)
            else do
              let c ← backslash e
              let (rest, s) ← scanString n s
              return (c :: rest, s)
      else if c.ord < 0x20 then none
      else do
        let (rest, s) ← scanString n s
        return (c :: rest, s)

/-- The digits at the front. -/
def scanDigits (s : Str) : Str × Str := (s.takeWhile isDigit, s.dropWhile isDigit)

/-- The value of decimal digits. -/
def natOf (digits : Str) : Nat :=
  digits.foldl (fun n c => 10 * n + (c.ord - 48)) 0

/-- The sign of `NUMBER_RE`. -/
def scanSign (s : Str) : Str × Str :=
  match s with
  | .char '-' :: t => ([.char '-'], t)
  | _ => ([], s)

/-- Its integer part. -/
def scanInt : Str → Option (Str × Str)
  | [] => none
  | c :: s =>
      if c = .char '0' then some ([c], s)
      else if isDigit c then some (c :: (scanDigits s).1, (scanDigits s).2)
      else none

/-- Its fraction, empty where there is none. -/
def scanFraction (s : Str) : Str × Str :=
  match s with
  | .char '.' :: t =>
      if (scanDigits t).1 = [] then ([], s) else (.char '.' :: (scanDigits t).1, (scanDigits t).2)
  | _ => ([], s)

/-- Its exponent, empty where there is none. -/
def scanExponent (s : Str) : Str × Str :=
  match s with
  | e :: t =>
      if e = .char 'e' ∨ e = .char 'E' then
        let (sign, u) : Str × Str := match t with
          | .char '-' :: u => ([.char '-'], u)
          | .char '+' :: u => ([.char '+'], u)
          | _ => ([], t)
        if (scanDigits u).1 = [] then ([], s) else (e :: sign ++ (scanDigits u).1, (scanDigits u).2)
      else ([], s)
  | [] => ([], [])

/-- `_match_number`. -/
def scanNumber (s : Str) : Option (Value × Str) := do
  let (sign, s) := scanSign s
  let (digits, s) ← scanInt s
  let (fraction, s) := scanFraction s
  let (exponent, s) := scanExponent s
  if fraction = [] ∧ exponent = [] then
    return (.int (if sign = [] then natOf digits else -natOf digits), s)
  else
    return (.float (sign ++ digits ++ fraction ++ exponent), s)

def literals : List (List Char × Value) :=
  let nan := ['N', 'a', 'N']
  let infinity := ['I', 'n', 'f', 'i', 'n', 'i', 't', 'y']
  [(['n', 'u', 'l', 'l'], .null), (['t', 'r', 'u', 'e'], .bool true),
    (['f', 'a', 'l', 's', 'e'], .bool false), (nan, .float (.ofChars nan)),
    (infinity, .float (.ofChars infinity)), ('-' :: infinity, .float (.ofChars ('-' :: infinity)))]

/-- What comes after `word`, where the text starts with it. -/
def eat : (word : List Char) → Str → Option Str
  | [], s => some s
  | _ :: _, [] => none
  | c :: word, d :: s => if d = .char c then eat word s else none

def scanLiteral (s : Str) : Option (Value × Str) :=
  literals.findSome? fun l => (eat l.1 s).map fun rest => (l.2, rest)

/-- `dict(pairs)`: the last of a key stands. -/
def dictOf (pairs : List (Str × Value)) : Value :=
  .dict (pairs.foldl (fun d p => Dict.set d p.1 p.2) [])

mutual

/-- `scan_once`. -/
def scanOnce : Nat → Str → Option (Value × Str)
  | 0, _ => none
  | _ + 1, [] => none
  | n + 1, c :: s =>
      if c = .char '"' then
        (scanString (s.length + 1) s).map fun p => (.str p.1, p.2)
      else if c = .char '\x7b' then
        match skipWs s with
        | .char '\x7d' :: s => some (.dict [], s)
        | s => (scanMembers n s).map fun p => (dictOf p.1, p.2)
      else if c = .char '[' then
        match skipWs s with
        | .char ']' :: s => some (.list [], s)
        | s => (scanItems n s).map fun p => (.list p.1, p.2)
      else (scanLiteral (c :: s)).or (scanNumber (c :: s))

/-- The loop of `JSONObject`, at the next key. -/
def scanMembers : Nat → Str → Option (List (Str × Value) × Str)
  | 0, _ => none
  | n + 1, s => do
      let s ← eat ['"'] s
      let (key, s) ← scanString (s.length + 1) s
      let s ← eat [':'] (skipWs s)
      let (value, s) ← scanOnce n (skipWs s)
      match skipWs s with
      | .char '\x7d' :: s => return ([(key, value)], s)
      | .char ',' :: s =>
          let (rest, s) ← scanMembers n (skipWs s)
          return ((key, value) :: rest, s)
      | _ => none

/-- The loop of `JSONArray`, at the next value. -/
def scanItems : Nat → Str → Option (List Value × Str)
  | 0, _ => none
  | n + 1, s => do
      let (value, s) ← scanOnce n s
      match skipWs s with
      | .char ']' :: s => return ([value], s)
      | .char ',' :: s =>
          let (rest, s) ← scanItems n (skipWs s)
          return (value :: rest, s)
      | _ => none

end

/-- `json.loads`, `none` where it raises `ValueError`. -/
def loads (s : List UInt8) : Option Value := do
  let text ← decodeJson s
  let (value, rest) ← scanOnce (text.length + 1) (skipWs text)
  if skipWs rest = [] then some value else none

/-! ## Writing -/

/-- A value the writer is given. -/
inductive Scalar where
  | str (s : String)
  | int (n : Int)

def Scalar.value : Scalar → Value
  | .str s => .str (.ofString s)
  | .int n => .int n

def hexDigits (n : Nat) : List Char :=
  [Nat.digitChar (n / 4096), Nat.digitChar (n / 256 % 16), Nat.digitChar (n / 16 % 16),
    Nat.digitChar (n % 16)]

/-- A `\u` escape. -/
def escapeU (n : Nat) : List Char := '\\' :: 'u' :: hexDigits n

/-- `ESCAPE_ASCII`. -/
def escape (c : Char) : List Char :=
  match c with
  | '"' => ['\\', '"']
  | '\\' => ['\\', '\\']
  | '\n' => ['\\', 'n']
  | '\r' => ['\\', 'r']
  | '\t' => ['\\', 't']
  | '\x0c' => ['\\', 'f']
  | '\x08' => ['\\', 'b']
  | c =>
      if 0x20 ≤ c.toNat ∧ c.toNat < 0x7f then [c]
      else if c.toNat < 0x10000 then escapeU c.toNat
      else escapeU (0xD800 + (c.toNat - 0x10000) / 1024) ++
        escapeU (0xDC00 + (c.toNat - 0x10000) % 1024)

def dumpsStr (s : String) : List Char := '"' :: s.toList.flatMap escape ++ ['"']

def dumpsInt (n : Int) : List Char :=
  if n < 0 then '-' :: Nat.toDigits 10 n.natAbs else Nat.toDigits 10 n.natAbs

def Scalar.dumps : Scalar → List Char
  | .str s => dumpsStr s
  | .int n => dumpsInt n

def dumpsMember (m : String × Scalar) : List Char := dumpsStr m.1 ++ [':', ' '] ++ m.2.dumps

def dumpsMembers : List (String × Scalar) → List Char
  | [] => ['\x7d']
  | [m] => dumpsMember m ++ ['\x7d']
  | m :: rest => dumpsMember m ++ [',', ' '] ++ dumpsMembers rest

/-- `json.dumps`. -/
def dumps (members : List (String × Scalar)) : List Char := '\x7b' :: dumpsMembers members

/-! ## Strings read back -/

theorem hexDigit?_digitChar : ∀ d, d < 16 → hexDigit? (.char (Nat.digitChar d)) = some d := by
  decide

theorem ofChars_append (cs ds : List Char) :
    Str.ofChars (cs ++ ds) = Str.ofChars cs ++ Str.ofChars ds := List.map_append

section Strings

variable {n : Nat} {rest : Str}

/-- The four digits of an escape. -/
theorem decodeU_hexDigits (hn : n < 0x10000) :
    decodeU (Str.ofChars (hexDigits n) ++ rest) = some (n, rest) := by
  have hvalue : ((n / 4096 * 16 + n / 256 % 16) * 16 + n / 16 % 16) * 16 + n % 16 = n := by omega
  have ha := hexDigit?_digitChar (n / 4096) (by omega)
  have hb := hexDigit?_digitChar (n / 256 % 16) (by omega)
  have hc := hexDigit?_digitChar (n / 16 % 16) (by omega)
  have hd := hexDigit?_digitChar (n % 16) (by omega)
  simp only [hexDigits, Str.ofChars, List.map_cons, List.map_nil, List.cons_append, List.nil_append,
    decodeU, ha, hb, hc, hd]
  show some (_, rest) = _
  rw [hvalue]

/-- An escape that is a character of its own. -/
theorem scanU_single (hn : n < 0x10000) (hhigh : isHigh n = false) :
    scanU (Str.ofChars (hexDigits n) ++ rest) = some (n, rest) := by
  unfold scanU
  rw [decodeU_hexDigits hn]
  show (if isHigh n = true then _ else some (n, rest)) = _
  rw [hhigh]
  rfl

/-- Two escapes that are one character. -/
theorem scanU_pair {high low : Nat} (hhigh : isHigh high = true) (hlow : isLow low = true) :
    scanU (Str.ofChars (hexDigits high) ++ (Str.ofChars (escapeU low) ++ rest)) =
      some (join high low, rest) := by
  have hh : high < 0x10000 := by
    simp only [isHigh, Bool.and_eq_true, decide_eq_true_eq] at hhigh
    omega
  have hl : low < 0x10000 := by
    simp only [isLow, Bool.and_eq_true, decide_eq_true_eq] at hlow
    omega
  unfold scanU
  rw [decodeU_hexDigits hh]
  show (if isHigh high = true then
    (decodeU (Str.ofChars (hexDigits low) ++ rest)).bind _ else _) = _
  rw [if_pos hhigh, decodeU_hexDigits hl]
  show some (if isLow low = true then (join high low, rest) else _) = _
  rw [if_pos hlow]

theorem scanString_backslash {e c : CodePoint} (he : e ≠ .char 'u') (hc : backslash e = some c) :
    scanString (n + 1) (.char '\\' :: e :: rest) =
      (scanString n rest).map fun p => (c :: p.1, p.2) := by
  rw [scanString, if_neg (by decide), if_pos rfl]
  simp only [if_neg he, hc]
  cases scanString n rest <;> rfl

theorem scanString_u {s : Str} {code : Nat} {c : CodePoint} (hu : scanU s = some (code, rest))
    (hc : CodePoint.ofNat? code = some c) :
    scanString (n + 1) (.char '\\' :: .char 'u' :: s) =
      (scanString n rest).map fun p => (c :: p.1, p.2) := by
  rw [scanString, if_neg (by decide), if_pos rfl]
  simp only [hu]
  show (CodePoint.ofNat? code).bind _ = _
  rw [hc]
  cases scanString n rest <;> rfl

theorem scanString_plain {c : CodePoint} (hquote : c ≠ .char '"') (hslash : c ≠ .char '\\')
    (hcontrol : 0x20 ≤ c.ord) :
    scanString (n + 1) (c :: rest) = (scanString n rest).map fun p => (c :: p.1, p.2) := by
  rw [scanString.eq_def]
  simp only [if_neg hquote, if_neg hslash, if_neg (Nat.not_lt.2 hcontrol)]
  cases scanString n rest <;> rfl

/-- A character beyond `U+FFFF` is the two surrogates it is written as. -/
theorem join_surrogates {m : Nat} (hm : 0x10000 ≤ m) (hmax : m < 0x110000) :
    isHigh (0xD800 + (m - 0x10000) / 1024) = true ∧ isLow (0xDC00 + (m - 0x10000) % 1024) = true ∧
      join (0xD800 + (m - 0x10000) / 1024) (0xDC00 + (m - 0x10000) % 1024) = m := by
  obtain ⟨k, rfl⟩ := Nat.exists_eq_add_of_le hm
  have hk : k < 1024 * 1024 := by omega
  rw [Nat.add_sub_cancel_left]
  unfold isHigh isLow join
  refine ⟨?_, ?_, ?_⟩
  · rw [Bool.and_eq_true, decide_eq_true_eq, decide_eq_true_eq]
    omega
  · rw [Bool.and_eq_true, decide_eq_true_eq, decide_eq_true_eq]
    omega
  · omega

/-- No character is a surrogate. -/
theorem not_isHigh (c : Char) : isHigh c.toNat = false := by
  have hvalid : c.toNat < 0xD800 ∨ 0xDFFF < c.toNat ∧ c.toNat < 0x110000 := c.valid
  simp only [isHigh, Bool.and_eq_false_iff, decide_eq_false_iff_not]
  omega

/-- One character, however it is written. -/
theorem scanString_escape (c : Char) :
    scanString (n + 1) (Str.ofChars (escape c) ++ rest) =
      (scanString n rest).map fun p => (.char c :: p.1, p.2) := by
  unfold escape
  split
  · exact scanString_backslash (by decide) rfl
  · exact scanString_backslash (by decide) rfl
  · exact scanString_backslash (by decide) rfl
  · exact scanString_backslash (by decide) rfl
  · exact scanString_backslash (by decide) rfl
  · exact scanString_backslash (by decide) rfl
  · exact scanString_backslash (by decide) rfl
  · rename_i hquote hslash _ _ _ _ _
    split
    · rename_i hprintable
      exact scanString_plain (by simpa using hquote) (by simpa using hslash) hprintable.1
    · split
      · rename_i hsmall
        exact scanString_u (scanU_single hsmall (not_isHigh c)) (CodePoint.ofNat?_toNat c)
      · rename_i hlarge
        have hmax : c.toNat < 0x110000 := by
          have hvalid : c.toNat < 0xD800 ∨ 0xDFFF < c.toNat ∧ c.toNat < 0x110000 := c.valid
          omega
        obtain ⟨hhigh, hlow, hjoin⟩ := join_surrogates (Nat.le_of_not_lt hlarge) hmax
        rw [ofChars_append, List.append_assoc]
        refine scanString_u (scanU_pair hhigh hlow) ?_
        rw [hjoin]
        exact CodePoint.ofNat?_toNat c

/-- The writer's string is read to its closing quote. -/
theorem scanString_escaped (cs : List Char) (hn : cs.length < n) :
    scanString n (Str.ofChars (cs.flatMap escape) ++ .char '"' :: rest) =
      some (Str.ofChars cs, rest) := by
  induction cs generalizing n with
  | nil =>
      cases n with
      | zero => exact absurd hn (Nat.not_lt_zero _)
      | succ n => rfl
  | cons c cs ih =>
      cases n with
      | zero => exact absurd hn (Nat.not_lt_zero _)
      | succ n =>
          rw [List.flatMap_cons, ofChars_append, List.append_assoc, scanString_escape,
            ih (Nat.lt_of_succ_lt_succ hn)]
          rfl

end Strings

/-! ## Numbers read back -/

/-- A number ends before this. -/
def Stops (s : Str) : Prop :=
  ∀ c ∈ s.head?, isDigit c = false ∧ c ≠ .char '.' ∧ c ≠ .char 'e' ∧ c ≠ .char 'E'

section Numbers

variable {n : Nat} {rest : Str}

theorem isDigit_toDigits : ∀ c ∈ Str.ofChars (Nat.toDigits 10 n), isDigit c = true := by
  intro c hc
  obtain ⟨d, hd, rfl⟩ := List.mem_map.1 hc
  exact Nat.isDigit_of_mem_toDigits (by decide) (by decide) hd

theorem scanDigits_append {ds : Str} (hds : ∀ c ∈ ds, isDigit c = true) (hrest : Stops rest) :
    scanDigits (ds ++ rest) = (ds, rest) := by
  have hnone : rest.takeWhile isDigit = [] ∧ rest.dropWhile isDigit = rest := by
    cases rest with
    | nil => exact ⟨rfl, rfl⟩
    | cons c rest =>
        have hc := (hrest c rfl).1
        rw [List.takeWhile_cons_of_neg (by rw [hc]; exact nofun),
          List.dropWhile_cons_of_neg (by rw [hc]; exact nofun)]
        exact ⟨rfl, rfl⟩
  unfold scanDigits
  rw [List.takeWhile_append_of_pos hds, List.dropWhile_append_of_pos hds, hnone.1, hnone.2,
    List.append_nil]

/-- Only zero starts with a zero. -/
theorem head?_toDigits_ne (hn : 0 < n) : (Nat.toDigits 10 n).head? ≠ some '0' := by
  induction n using Nat.strong_induction_on with
  | _ n ih =>
      rw [Nat.toDigits_eq_if (by decide)]
      split
      · rename_i hlt
        intro h
        have hzero : n.digitChar = '0' := Option.some.inj h
        rw [Nat.digitChar_eq_zero] at hzero
        omega
      · rw [List.head?_append_of_ne_nil _ Nat.toDigits_ne_nil]
        exact ih (n / 10) (by omega) (by omega)

theorem scanInt_toDigits (hrest : Stops rest) :
    scanInt (Str.ofChars (Nat.toDigits 10 n) ++ rest) =
      some (Str.ofChars (Nat.toDigits 10 n), rest) := by
  rcases Nat.eq_zero_or_pos n with rfl | hn
  · rfl
  · have hdigits := isDigit_toDigits (n := n)
    have hhead := head?_toDigits_ne hn
    cases hds : Nat.toDigits 10 n with
    | nil => exact absurd hds Nat.toDigits_ne_nil
    | cons d ds =>
        rw [hds] at hdigits hhead
        have hd : CodePoint.char d ≠ .char '0' := by
          intro h
          injection h with h
          exact hhead (by rw [h]; rfl)
        show (if CodePoint.char d = .char '0' then _ else _) = _
        rw [if_neg hd, if_pos (hdigits _ List.mem_cons_self)]
        have hspan : scanDigits (Str.ofChars ds ++ rest) = (Str.ofChars ds, rest) :=
          scanDigits_append (fun c hc => hdigits c (List.mem_cons_of_mem _ hc)) hrest
        show some (CodePoint.char d :: (scanDigits (Str.ofChars ds ++ rest)).1,
          (scanDigits (Str.ofChars ds ++ rest)).2) = _
        rw [hspan]
        rfl

theorem natOf_toDigits : natOf (Str.ofChars (Nat.toDigits 10 n)) = n := by
  unfold natOf Str.ofChars
  rw [List.foldl_map]
  have h := Nat.ofDigitChars_ten_toDigits (n := n)
  rw [Nat.ofDigitChars_eq_foldl] at h
  exact h

theorem scanFraction_stops (h : Stops rest) : scanFraction rest = ([], rest) := by
  unfold scanFraction
  split
  · exact absurd rfl (h _ rfl).2.1
  · rfl

theorem scanExponent_stops (h : Stops rest) : scanExponent rest = ([], rest) := by
  unfold scanExponent
  split
  · rename_i e t
    have he := (h e rfl).2.2
    rw [if_neg (not_or.2 he)]
  · rfl

/-- No digits start with a sign. -/
theorem unsigned_toDigits : ∃ c cs, Str.ofChars (Nat.toDigits 10 n) = .char c :: cs ∧
    c.isDigit = true := by
  have hdigits := isDigit_toDigits (n := n)
  cases hds : Nat.toDigits 10 n with
  | nil => exact absurd hds Nat.toDigits_ne_nil
  | cons d ds =>
      rw [hds] at hdigits
      exact ⟨d, Str.ofChars ds, rfl, hdigits _ List.mem_cons_self⟩

theorem scanNumber_int {s t sign digits : Str} (hsign : scanSign s = (sign, t))
    (hint : scanInt t = some (digits, rest)) (h : Stops rest) :
    scanNumber s = some (.int (if sign = [] then natOf digits else -natOf digits), rest) := by
  unfold scanNumber
  rw [hsign]
  simp only [hint, Option.bind_eq_bind, Option.bind_some, scanFraction_stops h,
    scanExponent_stops h, and_self, if_true]
  rfl

/-- An integer is read to its end. -/
theorem scanNumber_dumpsInt (m : Int) (h : Stops rest) :
    scanNumber (Str.ofChars (dumpsInt m) ++ rest) = some (.int m, rest) := by
  have hint := scanInt_toDigits (n := m.natAbs) h
  unfold dumpsInt
  by_cases hneg : m < 0
  · rw [if_pos hneg]
    have hm : -(m.natAbs : Int) = m := by omega
    have hsign : scanSign (Str.ofChars ('-' :: Nat.toDigits 10 m.natAbs) ++ rest) =
        ([.char '-'], Str.ofChars (Nat.toDigits 10 m.natAbs) ++ rest) := rfl
    rw [scanNumber_int hsign hint h, natOf_toDigits, if_neg nofun, hm]
  · rw [if_neg hneg]
    have hsign : scanSign (Str.ofChars (Nat.toDigits 10 m.natAbs) ++ rest) =
        ([], Str.ofChars (Nat.toDigits 10 m.natAbs) ++ rest) := by
      obtain ⟨c, cs, hcs, hc⟩ := unsigned_toDigits (n := m.natAbs)
      rw [hcs]
      unfold scanSign
      split
      · rename_i heq
        cases heq
        cases hc
      · rfl
    have hm : (m.natAbs : Int) = m := by omega
    rw [scanNumber_int hsign hint h, natOf_toDigits, if_pos rfl, hm]

end Numbers

/-! ## Dictionaries read back -/

section Members

variable {n : Nat} {rest : Str}

theorem length_le_flatMap_escape (cs : List Char) : cs.length ≤ (cs.flatMap escape).length := by
  induction cs with
  | nil => exact Nat.zero_le _
  | cons c cs ih =>
      have hpos : 0 < (escape c).length := by
        unfold escape
        split
        case h_8 =>
          split
          · exact Nat.zero_lt_one
          · split <;> exact Nat.succ_pos _
        all_goals exact Nat.succ_pos _
      rw [List.length_cons, List.flatMap_cons, List.length_append]
      omega

/-- An integer starts with a digit, or with a sign before one. -/
theorem dumpsInt_cons (m : Int) : ∃ c cs, Str.ofChars (dumpsInt m) = .char c :: cs ∧
    (c.isDigit = true ∨ c = '-' ∧ ∃ d ds, cs = .char d :: ds ∧ d.isDigit = true) := by
  obtain ⟨c, cs, hcs, hc⟩ := unsigned_toDigits (n := m.natAbs)
  unfold dumpsInt
  split
  · exact ⟨'-', _, rfl, .inr ⟨rfl, c, cs, hcs, hc⟩⟩
  · exact ⟨c, cs, hcs, .inl hc⟩

theorem skipWs_cons {c : CodePoint} (h : isWs c = false) : skipWs (c :: rest) = c :: rest :=
  List.dropWhile_cons_of_neg (by rw [h]; exact nofun)

/-- What starts with a digit, or with a sign before one, is no literal. -/
theorem scanLiteral_number {c : Char} {s : Str}
    (h : c.isDigit = true ∨ c = '-' ∧ ∀ d ∈ s.head?, d ≠ .char 'I') :
    scanLiteral (.char c :: s) = none := by
  have hn : c ≠ 'n' := by
    rintro rfl
    simp at h
  have ht : c ≠ 't' := by
    rintro rfl
    simp at h
  have hf : c ≠ 'f' := by
    rintro rfl
    simp at h
  have hN : c ≠ 'N' := by
    rintro rfl
    simp at h
  have hI : c ≠ 'I' := by
    rintro rfl
    simp at h
  have hminus : c = '-' → eat ['I', 'n', 'f', 'i', 'n', 'i', 't', 'y'] s = none := by
    rintro rfl
    cases s with
    | nil => rfl
    | cons d s =>
        rcases h with h | ⟨-, h⟩
        · cases h
        · rw [eat, if_neg (h d rfl)]
  simpa [scanLiteral, literals, eat, hn, ht, hf, hN, hI] using hminus

/-- A string, after its opening quote, and what comes after it. -/
def quoted (s : String) (rest : Str) : Str :=
  Str.ofChars (s.toList.flatMap escape) ++ .char '"' :: rest

theorem ofChars_dumpsStr (s : String) :
    Str.ofChars (dumpsStr s) ++ rest = .char '"' :: quoted s rest := by
  unfold dumpsStr quoted
  rw [List.cons_append]
  show CodePoint.char '"' :: (Str.ofChars (s.toList.flatMap escape ++ ['"']) ++ rest) = _
  rw [ofChars_append, List.append_assoc]
  rfl

theorem scanString_quoted (s : String) :
    scanString ((quoted s rest).length + 1) (quoted s rest) = some (.ofString s, rest) := by
  have hlength : s.toList.length ≤ (Str.ofChars (s.toList.flatMap escape)).length := by
    rw [Str.ofChars, List.length_map]
    exact length_le_flatMap_escape _
  apply scanString_escaped
  unfold quoted
  rw [List.length_append]
  omega

theorem scanOnce_str (s : String) : scanOnce (n + 1) (Str.ofChars (dumpsStr s) ++ rest) =
    some (.str (.ofString s), rest) := by
  rw [ofChars_dumpsStr, scanOnce, if_pos rfl, scanString_quoted]
  rfl

theorem scanOnce_int (m : Int) (h : Stops rest) :
    scanOnce (n + 1) (Str.ofChars (dumpsInt m) ++ rest) = some (.int m, rest) := by
  have hnumber := scanNumber_dumpsInt m h
  obtain ⟨c, cs, hcs, hc⟩ := dumpsInt_cons m
  rw [hcs] at hnumber ⊢
  have hquote : CodePoint.char c ≠ .char '"' := by
    rintro ⟨⟩
    simp at hc
  have hbrace : CodePoint.char c ≠ .char '\x7b' := by
    rintro ⟨⟩
    simp at hc
  have hbracket : CodePoint.char c ≠ .char '[' := by
    rintro ⟨⟩
    simp at hc
  rw [List.cons_append] at hnumber ⊢
  rw [scanOnce, if_neg hquote, if_neg hbrace, if_neg hbracket, scanLiteral_number, hnumber]
  · rfl
  · rcases hc with hc | ⟨rfl, d, ds, rfl, hd⟩
    · exact .inl hc
    · refine .inr ⟨rfl, ?_⟩
      rintro _ ⟨⟩ ⟨⟩
      cases hd

theorem scanOnce_dumps (v : Scalar) (h : Stops rest) :
    scanOnce (n + 1) (Str.ofChars v.dumps ++ rest) = some (v.value, rest) := by
  cases v with
  | str s => exact scanOnce_str s
  | int m => exact scanOnce_int m h

/-- A value starts with no whitespace. -/
theorem skipWs_dumps (v : Scalar) :
    skipWs (Str.ofChars v.dumps ++ rest) = Str.ofChars v.dumps ++ rest := by
  cases v with
  | str s => rfl
  | int m =>
      obtain ⟨c, cs, hcs, hc⟩ := dumpsInt_cons m
      show skipWs (Str.ofChars (dumpsInt m) ++ rest) = Str.ofChars (dumpsInt m) ++ rest
      rw [hcs]
      apply skipWs_cons
      simp only [isWs, Bool.or_eq_false_iff, decide_eq_false_iff_not]
      refine ⟨⟨⟨?_, ?_⟩, ?_⟩, ?_⟩ <;>
        · rintro ⟨⟩
          simp at hc

/-- The writer's members, as the reader has them. -/
def members (ms : List (String × Scalar)) : List (Str × Value) :=
  ms.map fun m => (.ofString m.1, m.2.value)

theorem ofChars_dumpsMember (m : String × Scalar) : Str.ofChars (dumpsMember m) ++ rest =
    .char '"' :: quoted m.1 (.char ':' :: .char ' ' :: (Str.ofChars m.2.dumps ++ rest)) := by
  unfold dumpsMember
  rw [ofChars_append, ofChars_append, List.append_assoc, List.append_assoc, ofChars_dumpsStr]
  rfl

/-- A key and its value. -/
theorem scanMembers_dumpsMember {m : String × Scalar} (h : Stops rest) :
    scanMembers (n + 2) (Str.ofChars (dumpsMember m) ++ rest) =
      match skipWs rest with
      | .char '\x7d' :: s => some ([(.ofString m.1, m.2.value)], s)
      | .char ',' :: s => (scanMembers (n + 1) (skipWs s)).map
          fun p => ((.ofString m.1, m.2.value) :: p.1, p.2)
      | _ => none := by
  have hcolon : eat [':'] (skipWs (.char ':' :: .char ' ' :: (Str.ofChars m.2.dumps ++ rest))) =
      some (.char ' ' :: (Str.ofChars m.2.dumps ++ rest)) := rfl
  have hspace : skipWs (.char ' ' :: (Str.ofChars m.2.dumps ++ rest)) =
      Str.ofChars m.2.dumps ++ rest := skipWs_dumps m.2
  rw [ofChars_dumpsMember, scanMembers]
  simp only [eat, if_true, Option.bind_eq_bind, Option.bind_some, scanString_quoted, hcolon, hspace,
    scanOnce_dumps m.2 h]
  split
  · rfl
  · cases scanMembers (n + 1) (skipWs _) <;> rfl
  · rfl

theorem stops_comma {s : Str} : Stops (.char ',' :: s) := by
  rintro c ⟨⟩
  decide

theorem stops_brace {s : Str} : Stops (.char '\x7d' :: s) := by
  rintro c ⟨⟩
  decide

/-- A dictionary that is not empty starts with a key. -/
theorem dumpsMembers_quote {ms : List (String × Scalar)} (hms : ms ≠ []) :
    ∃ s, Str.ofChars (dumpsMembers ms) ++ rest = .char '"' :: s := by
  unfold dumpsMembers
  split
  · exact absurd rfl hms
  · rw [ofChars_append, List.append_assoc, ofChars_dumpsMember]
    exact ⟨_, rfl⟩
  · rw [ofChars_append, ofChars_append, List.append_assoc, List.append_assoc, ofChars_dumpsMember]
    exact ⟨_, rfl⟩

/-- The members are read to the closing brace. -/
theorem scanMembers_dumps {ms : List (String × Scalar)} (hms : ms ≠ []) (hn : ms.length < n) :
    scanMembers n (Str.ofChars (dumpsMembers ms) ++ rest) = some (members ms, rest) := by
  induction ms using dumpsMembers.induct generalizing n with
  | case1 => exact absurd rfl hms
  | case2 m =>
      obtain ⟨n, rfl⟩ : ∃ k, n = k + 2 := ⟨n - 2, by simp at hn; omega⟩
      have htext : Str.ofChars (dumpsMembers [m]) ++ rest =
          Str.ofChars (dumpsMember m) ++ .char '\x7d' :: rest := by
        show Str.ofChars (dumpsMember m ++ ['\x7d']) ++ rest = _
        rw [ofChars_append, List.append_assoc]
        rfl
      rw [htext, scanMembers_dumpsMember stops_brace]
      rfl
  | case3 m rest' hne ih =>
      obtain ⟨n, rfl⟩ : ∃ k, n = k + 2 := ⟨n - 2, by simp at hn; omega⟩
      have hrest' : rest' ≠ [] := by
        rintro rfl
        exact hne rfl
      have htext : Str.ofChars (dumpsMembers (m :: rest')) ++ rest = Str.ofChars (dumpsMember m) ++
          .char ',' :: .char ' ' :: (Str.ofChars (dumpsMembers rest') ++ rest) := by
        rw [dumpsMembers, ofChars_append, ofChars_append, List.append_assoc, List.append_assoc]
        · rfl
        · exact hne
      have hskip : skipWs (.char ' ' :: (Str.ofChars (dumpsMembers rest') ++ rest)) =
          Str.ofChars (dumpsMembers rest') ++ rest := by
        obtain ⟨s, hs⟩ : ∃ s, Str.ofChars (dumpsMembers rest') ++ rest = .char '"' :: s :=
          dumpsMembers_quote hrest'
        rw [hs]
        rfl
      have hlater : scanMembers (n + 1) (Str.ofChars (dumpsMembers rest') ++ rest) =
          some (members rest', rest) := by
        apply ih hrest'
        simp at hn
        omega
      rw [htext, scanMembers_dumpsMember stops_comma]
      show (scanMembers (n + 1) (skipWs (.char ' ' ::
        (Str.ofChars (dumpsMembers rest') ++ rest)))).map _ = _
      rw [hskip, hlater]
      rfl

end Members

/-! ## The writer is ASCII -/

/-- ASCII, and not NUL. -/
def Plain (c : Char) : Prop := 0 < c.toNat ∧ c.toNat < 128

instance (c : Char) : Decidable (Plain c) := inferInstanceAs (Decidable (_ ∧ _))

theorem plain_of_all {cs : List Char} (h : (cs.all fun c => decide (Plain c)) = true) :
    ∀ c ∈ cs, Plain c :=
  fun c hc => of_decide_eq_true (List.all_eq_true.1 h c hc)

theorem plain_digitChar : ∀ d, d < 16 → Plain (Nat.digitChar d) := by decide

theorem plain_hexDigits {n : Nat} (hn : n < 0x10000) : ∀ c ∈ hexDigits n, Plain c := by
  unfold hexDigits
  intro c hc
  simp only [List.mem_cons, List.not_mem_nil, or_false] at hc
  rcases hc with rfl | rfl | rfl | rfl <;> exact plain_digitChar _ (by omega)

theorem plain_escapeU {n : Nat} (hn : n < 0x10000) : ∀ c ∈ escapeU n, Plain c := by
  intro c hc
  rcases List.mem_cons.1 hc with rfl | hc
  · decide
  · rcases List.mem_cons.1 hc with rfl | hc
    · decide
    · exact plain_hexDigits hn c hc

theorem plain_escape (c : Char) : ∀ d ∈ escape c, Plain d := by
  unfold escape
  split
  case h_8 =>
    split
    · rename_i hprintable
      intro d hd
      rw [List.mem_singleton.1 hd]
      unfold Plain
      omega
    · split
      · rename_i hsmall
        exact plain_escapeU hsmall
      · rename_i hlarge
        have hmax : c.toNat < 0x110000 := by
          have hvalid : c.toNat < 0xD800 ∨ 0xDFFF < c.toNat ∧ c.toNat < 0x110000 := c.valid
          omega
        intro d hd
        rcases List.mem_append.1 hd with hd | hd
        · exact plain_escapeU (by omega) d hd
        · exact plain_escapeU (by omega) d hd
  all_goals exact plain_of_all rfl

theorem plain_dumpsStr (s : String) : ∀ c ∈ dumpsStr s, Plain c := by
  intro c hc
  rcases List.mem_append.1 hc with hc | hc
  · rcases List.mem_cons.1 hc with rfl | hc
    · decide
    · obtain ⟨d, -, hd⟩ := List.mem_flatMap.1 hc
      exact plain_escape d c hd
  · rw [List.mem_singleton.1 hc]
    decide

theorem plain_toDigits (n : Nat) : ∀ c ∈ Nat.toDigits 10 n, Plain c := by
  intro c hc
  have hdigit := Nat.isDigit_of_mem_toDigits (by decide) (by decide) hc
  have hrange : 48 ≤ c.toNat ∧ c.toNat ≤ 57 := by
    simpa [Char.isDigit, UInt32.le_iff_toNat_le] using hdigit
  unfold Plain
  omega

theorem plain_dumpsInt (n : Int) : ∀ c ∈ dumpsInt n, Plain c := by
  unfold dumpsInt
  split
  · intro c hc
    rcases List.mem_cons.1 hc with rfl | hc
    · decide
    · exact plain_toDigits _ c hc
  · exact plain_toDigits _

theorem plain_dumpsMember (m : String × Scalar) : ∀ c ∈ dumpsMember m, Plain c := by
  have hcolon : ∀ c ∈ [':', ' '], Plain c := plain_of_all rfl
  intro c hc
  rcases List.mem_append.1 hc with hc | hc
  · rcases List.mem_append.1 hc with hc | hc
    · exact plain_dumpsStr _ c hc
    · exact hcolon c hc
  · cases hv : m.2 with
    | str s =>
        rw [hv] at hc
        exact plain_dumpsStr s c hc
    | int n =>
        rw [hv] at hc
        exact plain_dumpsInt n c hc

theorem plain_dumpsMembers (ms : List (String × Scalar)) : ∀ c ∈ dumpsMembers ms, Plain c := by
  have hcomma : ∀ c ∈ [',', ' '], Plain c := plain_of_all rfl
  have hbrace : ∀ c ∈ ['\x7d'], Plain c := plain_of_all rfl
  induction ms using dumpsMembers.induct with
  | case1 => exact hbrace
  | case2 m =>
      intro c hc
      rcases List.mem_append.1 hc with hc | hc
      · exact plain_dumpsMember m c hc
      · exact hbrace c hc
  | case3 m rest hne ih =>
      intro c hc
      rw [dumpsMembers] at hc
      · rcases List.mem_append.1 hc with hc | hc
        · rcases List.mem_append.1 hc with hc | hc
          · exact plain_dumpsMember m c hc
          · exact hcomma c hc
        · exact ih c hc
      · exact hne

theorem plain_dumps (ms : List (String × Scalar)) : ∀ c ∈ dumps ms, Plain c := by
  intro c hc
  rcases List.mem_cons.1 hc with rfl | hc
  · decide
  · exact plain_dumpsMembers ms c hc

theorem length_le_dumpsMembers (ms : List (String × Scalar)) :
    ms.length ≤ (dumpsMembers ms).length := by
  induction ms using dumpsMembers.induct with
  | case1 => exact Nat.zero_le _
  | case2 m => exact Nat.succ_pos _
  | case3 m rest hne ih =>
      rw [dumpsMembers, List.length_append, List.length_append, List.length_cons]
      · have hcomma : [',', ' '].length = 2 := rfl
        omega
      · exact hne

/-- **Main lemma.**  What is written is read back, member for member. -/
theorem loads_dumps {ms : List (String × Scalar)} (hms : ms ≠ []) :
    loads ((dumps ms).map byteOf) = some (dictOf (members ms)) := by
  have hlength := length_le_dumpsMembers ms
  have hread : scanOnce ((Str.ofChars (dumps ms)).length + 1) (skipWs (Str.ofChars (dumps ms))) =
      some (dictOf (members ms), []) := by
    obtain ⟨s, hs⟩ : ∃ s, Str.ofChars (dumpsMembers ms) ++ [] = .char '"' :: s :=
      dumpsMembers_quote hms
    have hskip : skipWs (Str.ofChars (dumpsMembers ms)) = .char '"' :: s := by
      rw [List.append_nil] at hs
      rw [hs]
      rfl
    have hmembers : scanMembers (Str.ofChars (dumps ms)).length (Str.ofChars (dumpsMembers ms) ++ []) =
        some (members ms, []) := by
      apply scanMembers_dumps hms
      simp only [Str.ofChars, dumps, List.map_cons, List.length_cons, List.length_map]
      omega
    rw [hs] at hmembers
    show scanOnce _ (.char '\x7b' :: Str.ofChars (dumpsMembers ms)) = _
    rw [scanOnce, if_neg (by decide), if_pos rfl, hskip]
    show (scanMembers _ (.char '"' :: s)).map _ = _
    rw [hmembers]
    rfl
  unfold loads
  rw [decodeJson_ascii (plain_dumps ms)]
  simp only [Option.bind_eq_bind, Option.bind_some, hread]
  rfl

end Funduq.Lib.JsonText
