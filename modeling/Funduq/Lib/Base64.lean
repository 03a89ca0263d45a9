/-!
# Base64

Three bytes are written as four characters of an alphabet of 64.  The decoder reads the
characters one by one and is lenient: what is no character of the alphabet it skips, and
once a group is padded to its end it reads no further.  It reads back what was written
(`urlsafeB64decode_encode`).
-/

namespace Funduq.Lib.Base64

/-- The padding character. -/
def pad : UInt8 := 61

/-- The character of a value below 64. -/
def digit (v : Nat) : UInt8 :=
  if v < 26 then .ofNat (65 + v)
  else if v < 52 then .ofNat (71 + v)
  else if v < 62 then .ofNat (v - 4)
  else if v = 62 then 43
  else 47

/-- The value of a character, `none` where it is not in the alphabet. -/
def value? (c : UInt8) : Option Nat :=
  let n := c.toNat
  if 65 ≤ n ∧ n ≤ 90 then some (n - 65)
  else if 97 ≤ n ∧ n ≤ 122 then some (n - 71)
  else if 48 ≤ n ∧ n ≤ 57 then some (n + 4)
  else if n = 43 then some 62
  else if n = 47 then some 63
  else none

def b64encode : List UInt8 → List UInt8
  | [] => []
  | [a] => [digit (a.toNat / 4), digit (a.toNat % 4 * 16), pad, pad]
  | [a, b] => [digit (a.toNat / 4), digit (a.toNat % 4 * 16 + b.toNat / 16),
      digit (b.toNat % 16 * 4), pad]
  | a :: b :: c :: rest =>
      digit (a.toNat / 4) :: digit (a.toNat % 4 * 16 + b.toNat / 16) ::
        digit (b.toNat % 16 * 4 + c.toNat / 64) :: digit (c.toNat % 64) :: b64encode rest

/-- `binascii.a2b_base64`, in the middle of a group: `pos` of its characters have been
read, `left` are the bits left over from the last of them, and `pads` paddings stand after
it. -/
def a2bBase64 : (pos left pads : Nat) → List UInt8 → Option (List UInt8)
  | pos, _, _, [] => if pos = 0 then some [] else none
  | pos, left, pads, c :: rest =>
      if c = pad then
        if 2 ≤ pos then
          if 4 ≤ pos + (pads + 1) then some [] else a2bBase64 pos left (pads + 1) rest
        else a2bBase64 pos left pads rest
      else
        match value? c, pos with
        | none, _ => a2bBase64 pos left pads rest
        | some v, 0 => a2bBase64 1 v 0 rest
        | some v, 1 => (a2bBase64 2 (v % 16) 0 rest).map (.ofNat (left * 4 + v / 16) :: ·)
        | some v, 2 => (a2bBase64 3 (v % 4) 0 rest).map (.ofNat (left * 16 + v / 4) :: ·)
        | some v, _ => (a2bBase64 0 0 0 rest).map (.ofNat (left * 64 + v) :: ·)

def b64decode (s : List UInt8) : Option (List UInt8) := a2bBase64 0 0 0 s

/-! ## The URL-safe alphabet -/

def toUrlsafe (c : UInt8) : UInt8 := if c = 43 then 45 else if c = 47 then 95 else c

def fromUrlsafe (c : UInt8) : UInt8 := if c = 45 then 43 else if c = 95 then 47 else c

def urlsafeB64encode (s : List UInt8) : List UInt8 := (b64encode s).map toUrlsafe

def urlsafeB64decode (s : List UInt8) : Option (List UInt8) := b64decode (s.map fromUrlsafe)

/-! ## What is written is read back -/

theorem value?_digit : ∀ v, v < 64 → value? (digit v) = some v := by decide

theorem digit_ne_pad : ∀ v, v < 64 → digit v ≠ pad := by decide

theorem fromUrlsafe_digit : ∀ v, v < 64 → fromUrlsafe (toUrlsafe (digit v)) = digit v := by decide

section Group

variable {left pads v : Nat} {rest : List UInt8}

/-- A digit is taken in. -/
theorem a2bBase64_digit (pos : Nat) (hv : v < 64) :
    a2bBase64 pos left pads (digit v :: rest) = match pos with
      | 0 => a2bBase64 1 v 0 rest
      | 1 => (a2bBase64 2 (v % 16) 0 rest).map (.ofNat (left * 4 + v / 16) :: ·)
      | 2 => (a2bBase64 3 (v % 4) 0 rest).map (.ofNat (left * 16 + v / 4) :: ·)
      | _ => (a2bBase64 0 0 0 rest).map (.ofNat (left * 64 + v) :: ·) := by
  conv => lhs; unfold a2bBase64
  simp only [if_neg (digit_ne_pad v hv), value?_digit v hv]
  rcases pos with - | - | - | pos <;> rfl

theorem a2bBase64_zero (hv : v < 64) :
    a2bBase64 0 left pads (digit v :: rest) = a2bBase64 1 v 0 rest := a2bBase64_digit 0 hv

theorem a2bBase64_one (hv : v < 64) : a2bBase64 1 left pads (digit v :: rest) =
    (a2bBase64 2 (v % 16) 0 rest).map (.ofNat (left * 4 + v / 16) :: ·) := a2bBase64_digit 1 hv

theorem a2bBase64_two (hv : v < 64) : a2bBase64 2 left pads (digit v :: rest) =
    (a2bBase64 3 (v % 4) 0 rest).map (.ofNat (left * 16 + v / 4) :: ·) := a2bBase64_digit 2 hv

theorem a2bBase64_three (hv : v < 64) : a2bBase64 3 left pads (digit v :: rest) =
    (a2bBase64 0 0 0 rest).map (.ofNat (left * 64 + v) :: ·) := a2bBase64_digit 3 hv

end Group

/-- The bits put together are the byte they were taken from. -/
theorem ofNat_eq {n : Nat} {b : UInt8} (h : n = b.toNat) : UInt8.ofNat n = b := by
  rw [h, UInt8.ofNat_toNat]

theorem b64decode_encode (s : List UInt8) : b64decode (b64encode s) = some s := by
  unfold b64decode
  induction s using b64encode.induct with
  | case1 => rfl
  | case2 a =>
      have ha := a.toNat_lt
      rw [b64encode, a2bBase64_zero (by omega), a2bBase64_one (by omega)]
      have hbyte : UInt8.ofNat (a.toNat / 4 * 4 + a.toNat % 4 * 16 / 16) = a := ofNat_eq (by omega)
      rw [hbyte]
      rfl
  | case3 a b =>
      have ha := a.toNat_lt
      have hb := b.toNat_lt
      rw [b64encode, a2bBase64_zero (by omega), a2bBase64_one (by omega),
        a2bBase64_two (by omega)]
      have hfirst : UInt8.ofNat (a.toNat / 4 * 4 + (a.toNat % 4 * 16 + b.toNat / 16) / 16) = a :=
        ofNat_eq (by omega)
      have hsecond : UInt8.ofNat ((a.toNat % 4 * 16 + b.toNat / 16) % 16 * 16 +
          b.toNat % 16 * 4 / 4) = b := ofNat_eq (by omega)
      rw [hfirst, hsecond]
      rfl
  | case4 a b c rest ih =>
      have ha := a.toNat_lt
      have hb := b.toNat_lt
      have hc := c.toNat_lt
      rw [b64encode, a2bBase64_zero (by omega), a2bBase64_one (by omega),
        a2bBase64_two (by omega), a2bBase64_three (by omega), ih]
      have hfirst : UInt8.ofNat (a.toNat / 4 * 4 + (a.toNat % 4 * 16 + b.toNat / 16) / 16) = a :=
        ofNat_eq (by omega)
      have hsecond : UInt8.ofNat ((a.toNat % 4 * 16 + b.toNat / 16) % 16 * 16 +
          (b.toNat % 16 * 4 + c.toNat / 64) / 4) = b := ofNat_eq (by omega)
      have hthird : UInt8.ofNat ((b.toNat % 16 * 4 + c.toNat / 64) % 4 * 64 + c.toNat % 64) = c :=
        ofNat_eq (by omega)
      simp only [Option.map_some, hfirst, hsecond, hthird]

/-- Every character that is written is a digit or padding. -/
theorem mem_b64encode {s : List UInt8} {c : UInt8} (h : c ∈ b64encode s) :
    c = pad ∨ ∃ v, v < 64 ∧ c = digit v := by
  induction s using b64encode.induct with
  | case1 => cases h
  | case2 a =>
      have ha := a.toNat_lt
      simp only [b64encode, List.mem_cons, List.not_mem_nil, or_false] at h
      rcases h with rfl | rfl | rfl | rfl
      · exact .inr ⟨_, by omega, rfl⟩
      · exact .inr ⟨_, by omega, rfl⟩
      · exact .inl rfl
      · exact .inl rfl
  | case3 a b =>
      have ha := a.toNat_lt
      have hb := b.toNat_lt
      simp only [b64encode, List.mem_cons, List.not_mem_nil, or_false] at h
      rcases h with rfl | rfl | rfl | rfl
      · exact .inr ⟨_, by omega, rfl⟩
      · exact .inr ⟨_, by omega, rfl⟩
      · exact .inr ⟨_, by omega, rfl⟩
      · exact .inl rfl
  | case4 a b c' rest ih =>
      have ha := a.toNat_lt
      have hb := b.toNat_lt
      have hc := c'.toNat_lt
      simp only [b64encode, List.mem_cons] at h
      rcases h with rfl | rfl | rfl | rfl | h
      · exact .inr ⟨_, by omega, rfl⟩
      · exact .inr ⟨_, by omega, rfl⟩
      · exact .inr ⟨_, by omega, rfl⟩
      · exact .inr ⟨_, by omega, rfl⟩
      · exact ih h

theorem urlsafeB64decode_encode (s : List UInt8) :
    urlsafeB64decode (urlsafeB64encode s) = some s := by
  have hback : ((b64encode s).map toUrlsafe).map fromUrlsafe = b64encode s := by
    rw [List.map_map]
    refine (List.map_congr_left fun c hc => ?_).trans (List.map_id _)
    rcases mem_b64encode hc with rfl | ⟨v, hv, rfl⟩
    · rfl
    · exact fromUrlsafe_digit v hv
  unfold urlsafeB64decode urlsafeB64encode
  rw [hback]
  exact b64decode_encode s

theorem toUrlsafe_digit_ascii : ∀ v, v < 64 →
    (toUrlsafe (digit v)).toNat < 128 ∧ toUrlsafe (digit v) ≠ 46 := by decide

/-- A token of this alphabet is ASCII and has no full stop. -/
theorem mem_urlsafeB64encode {s : List UInt8} {c : UInt8} (h : c ∈ urlsafeB64encode s) :
    c.toNat < 128 ∧ c ≠ 46 := by
  obtain ⟨c, hc, rfl⟩ := List.mem_map.1 h
  rcases mem_b64encode hc with rfl | ⟨v, hv, rfl⟩
  · decide
  · exact toUrlsafe_digit_ascii v hv

end Funduq.Lib.Base64
