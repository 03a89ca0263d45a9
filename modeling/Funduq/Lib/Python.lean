import Mathlib.Data.Char
import Mathlib.Logic.Basic

/-!
# Python's strings

A Python string is a list of code points, and a code point need not be a character:
surrogates may stand alone.  Such a string has no UTF-8 encoding, and `encode` raises.

Bytes are read as text by `json.loads`: as UTF-8, UTF-16 or UTF-32, whichever their first
bytes look like, with lone surrogates let through.
-/

namespace Funduq.Lib.Python

/-- A character, or a surrogate that stands alone. -/
inductive CodePoint where
  | char (c : Char)
  /-- `U+D800 + n`. -/
  | surrogate (n : Fin 0x800)
  deriving DecidableEq

namespace CodePoint

def ord : CodePoint → Nat
  | .char c => c.toNat
  | .surrogate n => 0xD800 + n

/-- The code point of a number, where there is one. -/
def ofNat? (n : Nat) : Option CodePoint :=
  if h : n.isValidChar then some (.char (Char.ofNatAux n h))
  else if h : 0xD800 ≤ n ∧ n < 0xE000 then some (.surrogate ⟨n - 0xD800, by omega⟩)
  else none

def isAscii (c : CodePoint) : Bool := c.ord < 128

def char? : CodePoint → Option Char
  | .char c => some c
  | .surrogate _ => none

end CodePoint

abbrev Str := List CodePoint

namespace Str

def ofString (s : String) : Str := s.toList.map .char

/-- `isascii`. -/
def isAscii (s : Str) : Bool := s.all CodePoint.isAscii

/-- `encode()`: UTF-8, `none` where it raises `UnicodeEncodeError`. -/
def encode : Str → Option (List UInt8)
  | [] => some []
  | .char c :: s => (encode s).map (String.utf8EncodeChar c ++ ·)
  | .surrogate _ :: _ => none

/-- The text a string is, `none` where it holds a surrogate. -/
def text? (s : Str) : Option String := (s.mapM CodePoint.char?).map String.ofList

/-- All of its code points are characters. -/
def WellFormed (s : Str) : Prop := ∀ c ∈ s, ∃ ch, c = .char ch

/-- `split(sep, 1)`, `none` where the separator is not there. -/
def split1 (sep : CodePoint) : Str → Option (Str × Str)
  | [] => none
  | c :: s => if c = sep then some ([], s) else (split1 sep s).map fun p => (c :: p.1, p.2)

/-- A string of characters. -/
def ofChars (cs : List Char) : Str := cs.map .char

theorem text?_ofString (s : String) : text? (ofString s) = some s := by
  have hmap : ∀ cs : List Char, (cs.map CodePoint.char).mapM CodePoint.char? = some cs := by
    intro cs
    induction cs with
    | nil => rfl
    | cons c cs ih =>
        rw [List.map_cons, List.mapM_cons, ih]
        rfl
  unfold text? ofString
  rw [hmap, Option.map_some, String.ofList_toList]

theorem ofString_inj {s t : String} : ofString s = ofString t ↔ s = t := by
  constructor
  · intro h
    have htext := text?_ofString s
    rw [h, text?_ofString t] at htext
    exact (Option.some.inj htext).symm
  · rintro rfl
    rfl

theorem wellFormed_ofChars (cs : List Char) : (ofChars cs).WellFormed := by
  intro c hc
  obtain ⟨ch, -, rfl⟩ := List.mem_map.1 hc
  exact ⟨ch, rfl⟩

theorem isAscii_append {s t : Str} : isAscii (s ++ t) = (isAscii s && isAscii t) := List.all_append

theorem encode_isSome_iff {s : Str} : s.encode.isSome = true ↔ s.WellFormed := by
  induction s with
  | nil => exact iff_of_true rfl nofun
  | cons c s ih =>
      cases c with
      | char ch =>
          rw [encode, Option.isSome_map, ih]
          constructor
          · intro h c hc
            rcases List.mem_cons.1 hc with rfl | hc
            · exact ⟨ch, rfl⟩
            · exact h c hc
          · exact fun h c hc => h c (List.mem_cons_of_mem _ hc)
      | surrogate n =>
          refine iff_of_false nofun fun h => ?_
          obtain ⟨ch, hch⟩ := h _ List.mem_cons_self
          cases hch

theorem split1_cons (sep c : CodePoint) (s : Str) : split1 sep (c :: s) =
    if c = sep then some ([], s) else (split1 sep s).map fun p => (c :: p.1, p.2) := rfl

theorem split1_append {sep : CodePoint} {s t : Str} (h : sep ∉ s) :
    split1 sep (s ++ sep :: t) = some (s, t) := by
  induction s with
  | nil =>
      show (if sep = sep then _ else _) = _
      rw [if_pos rfl]
  | cons c s ih =>
      rw [List.mem_cons, not_or] at h
      rw [List.cons_append, split1_cons, if_neg (Ne.symm h.1), ih h.2]
      rfl

theorem split1_eq_some {sep : CodePoint} {s a b : Str} (h : split1 sep s = some (a, b)) :
    s = a ++ sep :: b ∧ sep ∉ a := by
  induction s generalizing a with
  | nil => cases h
  | cons c s ih =>
      rw [split1_cons] at h
      split at h
      · rename_i hc
        cases h
        rw [hc]
        exact ⟨rfl, List.not_mem_nil⟩
      · rename_i hc
        obtain ⟨⟨a', b'⟩, hsplit, heq⟩ := Option.map_eq_some_iff.1 h
        cases heq
        obtain ⟨rfl, hnot⟩ := ih hsplit
        refine ⟨rfl, ?_⟩
        rw [List.mem_cons, not_or]
        exact ⟨Ne.symm hc, hnot⟩

theorem split1_eq_none {sep : CodePoint} {s : Str} : split1 sep s = none ↔ sep ∉ s := by
  induction s with
  | nil => exact iff_of_true rfl List.not_mem_nil
  | cons c s ih =>
      rw [split1_cons, List.mem_cons, not_or, ← ih]
      by_cases hc : c = sep
      · rw [if_pos hc]
        exact iff_of_false nofun fun h => h.1 hc.symm
      · rw [if_neg hc, Option.map_eq_none_iff]
        exact ⟨fun h => ⟨Ne.symm hc, h⟩, fun h => h.2⟩

end Str

/-! ## Bytes read as text -/

/-- The six bits of a continuation byte. -/
def continuation (b : UInt8) : Option Nat :=
  if 0x80 ≤ b.toNat ∧ b.toNat < 0xC0 then some (b.toNat - 0x80) else none

/-- UTF-8 with surrogates let through: no code point is written longer than it must be. -/
def utf8 : List UInt8 → Option Str
  | [] => some []
  | a :: s =>
      let n := a.toNat
      if n < 0x80 then do
        let c ← CodePoint.ofNat? n
        let rest ← utf8 s
        return c :: rest
      else if n < 0xC2 then none
      else if n < 0xE0 then
        match s with
        | b :: s => do
            let b ← continuation b
            let c ← CodePoint.ofNat? ((n - 0xC0) * 64 + b)
            let rest ← utf8 s
            return c :: rest
        | _ => none
      else if n < 0xF0 then
        match s with
        | b :: c :: s => do
            let b ← continuation b
            let c ← continuation c
            let code := (n - 0xE0) * 4096 + b * 64 + c
            let c ← if code < 0x800 then none else CodePoint.ofNat? code
            let rest ← utf8 s
            return c :: rest
        | _ => none
      else
        match s with
        | b :: c :: d :: s => do
            let b ← continuation b
            let c ← continuation c
            let d ← continuation d
            let code := (n - 0xF0) * 262144 + b * 4096 + c * 64 + d
            let c ← if code < 0x10000 then none else CodePoint.ofNat? code
            let rest ← utf8 s
            return c :: rest
        | _ => none

/-- The numbers written in two bytes each. -/
def units16 (big : Bool) : List UInt8 → Option (List Nat)
  | [] => some []
  | a :: b :: s => (units16 big s).map
      ((if big then a.toNat * 256 + b.toNat else b.toNat * 256 + a.toNat) :: ·)
  | [_] => none

def isHigh (n : Nat) : Bool := 0xD800 ≤ n && n < 0xDC00

def isLow (n : Nat) : Bool := 0xDC00 ≤ n && n < 0xE000

/-- The code point of a pair of surrogates. -/
def join (high low : Nat) : Nat := 0x10000 + (high - 0xD800) * 1024 + (low - 0xDC00)

/-- UTF-16, its units put together. -/
def utf16 : List Nat → Option Str
  | [] => some []
  | [a] => (CodePoint.ofNat? a).map ([·])
  | a :: b :: s =>
      if isHigh a && isLow b then do
        let c ← CodePoint.ofNat? (join a b)
        let rest ← utf16 s
        return c :: rest
      else do
        let c ← CodePoint.ofNat? a
        let rest ← utf16 (b :: s)
        return c :: rest

def utf32 (big : Bool) : List UInt8 → Option Str
  | [] => some []
  | a :: b :: c :: d :: s => do
      let n := if big then ((a.toNat * 256 + b.toNat) * 256 + c.toNat) * 256 + d.toNat
        else ((d.toNat * 256 + c.toNat) * 256 + b.toNat) * 256 + a.toNat
      let c ← CodePoint.ofNat? n
      let rest ← utf32 big s
      return c :: rest
  | _ => none

/-- `json.detect_encoding`, and the text it comes to; `none` where it raises
`UnicodeDecodeError`. -/
def decodeJson (s : List UInt8) : Option Str :=
  if [0x00, 0x00, 0xFE, 0xFF].isPrefixOf s then utf32 true (s.drop 4)
  else if [0xFF, 0xFE, 0x00, 0x00].isPrefixOf s then utf32 false (s.drop 4)
  else if [0xFE, 0xFF].isPrefixOf s then (units16 true (s.drop 2)).bind utf16
  else if [0xFF, 0xFE].isPrefixOf s then (units16 false (s.drop 2)).bind utf16
  else if [0xEF, 0xBB, 0xBF].isPrefixOf s then utf8 (s.drop 3)
  else
    match s with
    | a :: b :: c :: d :: _ =>
        if a = 0 then
          if b = 0 then utf32 true s else (units16 true s).bind utf16
        else if b = 0 then
          if c = 0 ∧ d = 0 then utf32 false s else (units16 false s).bind utf16
        else utf8 s
    | [a, b] =>
        if a = 0 then (units16 true s).bind utf16
        else if b = 0 then (units16 false s).bind utf16
        else utf8 s
    | _ => utf8 s

/-! ## ASCII -/

theorem CodePoint.ofNat?_toNat (c : Char) : CodePoint.ofNat? c.toNat = some (.char c) := by
  have h : c.toNat.isValidChar := c.valid
  unfold CodePoint.ofNat?
  rw [dif_pos h]
  have hc : Char.ofNatAux c.toNat h = c := by
    apply Char.ext
    apply UInt32.toNat_inj.1
    rfl
  rw [hc]

/-- The byte of an ASCII character. -/
def byteOf (c : Char) : UInt8 := .ofNat c.toNat

/-- They are all ASCII. -/
def Ascii (cs : List Char) : Prop := ∀ c ∈ cs, c.toNat < 128

theorem Str.isAscii_ofChars {cs : List Char} : (Str.ofChars cs).isAscii = true ↔ Ascii cs := by
  unfold Str.isAscii Str.ofChars Ascii
  rw [List.all_map, List.all_eq_true]
  exact forall₂_congr fun c _ => decide_eq_true_iff

theorem byteOf_toNat {c : Char} (h : c.toNat < 128) : (byteOf c).toNat = c.toNat := by
  show (UInt8.ofNat c.toNat).toNat = c.toNat
  rw [UInt8.toNat_ofNat']
  omega

theorem utf8EncodeChar_ascii {c : Char} (h : c.toNat < 128) :
    String.utf8EncodeChar c = [byteOf c] := by
  have hsize : c.utf8Size = 1 := by
    rw [Char.utf8Size_eq_one_iff, UInt32.le_iff_toNat_le]
    exact Nat.le_of_lt_succ h
  rw [String.utf8EncodeChar_eq_singleton hsize]
  rfl

theorem Str.encode_ascii {cs : List Char} (h : Ascii cs) :
    Str.encode (.ofChars cs) = some (cs.map byteOf) := by
  induction cs with
  | nil => rfl
  | cons c cs ih =>
      show (Str.encode (.ofChars cs)).map (String.utf8EncodeChar c ++ ·) = _
      rw [ih fun d hd => h d (List.mem_cons_of_mem c hd),
        utf8EncodeChar_ascii (h c List.mem_cons_self)]
      rfl

theorem utf8_ascii {cs : List Char} (h : Ascii cs) :
    utf8 (cs.map byteOf) = some (.ofChars cs) := by
  induction cs with
  | nil => rfl
  | cons c cs ih =>
      have hc := h c List.mem_cons_self
      rw [List.map_cons, utf8.eq_def]
      simp only [byteOf_toNat hc]
      rw [if_pos hc, CodePoint.ofNat?_toNat, ih fun d hd => h d (List.mem_cons_of_mem c hd)]
      rfl

/-- A byte order mark starts with a byte that is not in the text. -/
theorem not_isPrefixOf {a : UInt8} {mark s : List UInt8} (h : a ∉ s) :
    ¬ (a :: mark).isPrefixOf s = true := by
  cases s with
  | nil => simp [List.isPrefixOf]
  | cons b s =>
      intro hmark
      rw [List.isPrefixOf, Bool.and_eq_true, beq_iff_eq] at hmark
      exact h (hmark.1 ▸ List.mem_cons_self)

/-- ASCII text without NUL is read as UTF-8. -/
theorem decodeJson_utf8 {s : List UInt8} (h : ∀ b ∈ s, b.toNat < 128 ∧ b ≠ 0) :
    decodeJson s = utf8 s := by
  have hzero : (0x00 : UInt8) ∉ s := fun hmem => (h 0 hmem).2 rfl
  have hFF : (0xFF : UInt8) ∉ s := fun hmem => absurd (h 0xFF hmem).1 (by decide)
  have hFE : (0xFE : UInt8) ∉ s := fun hmem => absurd (h 0xFE hmem).1 (by decide)
  have hEF : (0xEF : UInt8) ∉ s := fun hmem => absurd (h 0xEF hmem).1 (by decide)
  unfold decodeJson
  rw [if_neg (not_isPrefixOf hzero), if_neg (not_isPrefixOf hFF), if_neg (not_isPrefixOf hFE),
    if_neg (not_isPrefixOf hFF), if_neg (not_isPrefixOf hEF)]
  split
  · rename_i a b c d rest
    rw [if_neg (h a (by simp)).2, if_neg (h b (by simp)).2]
  · rename_i a b
    rw [if_neg (h a (by simp)).2, if_neg (h b (by simp)).2]
  · rfl

theorem decodeJson_ascii {cs : List Char} (h : ∀ c ∈ cs, 0 < c.toNat ∧ c.toNat < 128) :
    decodeJson (cs.map byteOf) = some (.ofChars cs) := by
  rw [decodeJson_utf8, utf8_ascii fun c hc => (h c hc).2]
  intro b hb
  obtain ⟨c, hc, rfl⟩ := List.mem_map.1 hb
  have hn := h c hc
  refine ⟨by rw [byteOf_toNat hn.2]; exact hn.2, fun hzero => ?_⟩
  have htoNat := byteOf_toNat hn.2
  rw [hzero] at htoNat
  have : (0 : UInt8).toNat = 0 := rfl
  omega

end Funduq.Lib.Python
