/-
# Identifiers as text and as bytes

`lib/gpt/guid.c`: `uid_bin_to_str`, the other way of `uid_str_to_bin` (`LittleKernel.Gpt.Create`).

A text is five groups of hexadecimal digits with dashes between them.  The encoder takes the
bytes by a table, the decoder reads each group as a number; in the format that is not the
standard one the first three groups are little-endian.
-/

import LittleKernel.Gpt.Create

namespace LittleKernel
namespace Pit

open Bytes

/-- `char_order`: `uuid_format` and `guid_format`. -/
def charOrder (std : Bool) : List ℕ :=
  if std then [0, 1, 2, 3, 4, 5, 6, 7, 8, 9, 10, 11, 12, 13, 14, 15]
  else [3, 2, 1, 0, 5, 4, 7, 6, 8, 9, 10, 11, 12, 13, 14, 15]

/-- `uid_bin_to_str`. -/
def uidBinToStr (uid : List UInt8) (std : Bool) : List Char :=
  (List.range 16).flatMap fun i =>
    hex2 (uid.getD ((charOrder std).getD i 0) 0).toNat ++
      if i = 3 ∨ i = 5 ∨ i = 7 ∨ i = 9 then ['-'] else []

/-- Bytes in two digits each. -/
def hexText (bs : List UInt8) : List Char := bs.flatMap fun b => hex2 b.toNat

/-- Five groups of bytes. -/
structure Groups where
  time : List UInt8
  mid : List UInt8
  version : List UInt8
  seq : List UInt8
  node : List UInt8
  lengths : time.length = 4 ∧ mid.length = 2 ∧ version.length = 2 ∧ seq.length = 2 ∧
    node.length = 6

namespace Groups

/-- The text that has them as its digits. -/
def text (g : Groups) : List Char :=
  hexText g.time ++ '-' :: (hexText g.mid ++ '-' :: (hexText g.version ++ '-' ::
    (hexText g.seq ++ '-' :: hexText g.node)))

/-- The bytes in the order of a format. -/
def bin (g : Groups) (std : Bool) : List UInt8 :=
  if std then g.time ++ g.mid ++ g.version ++ g.seq ++ g.node
  else g.time.reverse ++ g.mid.reverse ++ g.version.reverse ++ g.seq ++ g.node

end Groups

/-! ### Digits -/

/-- A digit of `%02x`. -/
def hexChar (v : ℕ) : Char := Char.ofNat (if v < 10 then 48 + v else 87 + v)

theorem hex2_byte (b : UInt8) :
    hex2 b.toNat = [hexChar (b.toNat / 16), hexChar (b.toNat % 16)] := by
  have := b.toNat_lt
  rw [hex2, if_pos (by omega)]
  rfl

theorem hexDigit_hexChar {v : ℕ} (h : v < 16) : hexDigit (hexChar v) = some v := by
  revert v
  decide

/-- A hexadecimal digit is one of `%02x` up to its case. -/
theorem toLower_of_hexDigit {c : Char} {v : ℕ} (h : hexDigit c = some v) :
    v < 16 ∧ c.toLower = hexChar v := by
  have hc : (48 ≤ c.toNat ∧ c.toNat ≤ 57) ∨ (97 ≤ c.toNat ∧ c.toNat ≤ 102) ∨
      (65 ≤ c.toNat ∧ c.toNat ≤ 70) := by
    unfold hexDigit at h
    split_ifs at h with h₁ h₂ h₃
    · exact .inl h₁
    · exact .inr (.inl h₂)
    · exact .inr (.inr h₃)
  have hmem : c.toNat ∈ List.range' 48 10 ++ List.range' 97 6 ++ List.range' 65 6 := by
    simp only [List.mem_append, List.mem_range'_1]
    omega
  have hall : ∀ n ∈ List.range' 48 10 ++ List.range' 97 6 ++ List.range' 65 6,
      ∀ v, hexDigit (Char.ofNat n) = some v → v < 16 ∧ (Char.ofNat n).toLower = hexChar v := by
    have hdecide : ∀ n ∈ List.range' 48 10 ++ List.range' 97 6 ++ List.range' 65 6,
        ∃ v < 16, hexDigit (Char.ofNat n) = some v ∧ (Char.ofNat n).toLower = hexChar v := by
      decide
    intro n hn v hv
    obtain ⟨w, hw, hdigit, hlower⟩ := hdecide n hn
    obtain rfl := Option.some.inj (hv.symm.trans hdigit)
    exact ⟨hw, hlower⟩
  rw [← Char.ofNat_toNat c] at h ⊢
  exact hall _ hmem v h

/-- **Some digits write bytes**, two of them for each, in upper or lower case. -/
inductive Writes : List Char → List UInt8 → Prop
  | nil : Writes [] []
  | cons {c d : Char} {l : List Char} {b : UInt8} {bs : List UInt8} :
      hexDigit c = some (b.toNat / 16) → hexDigit d = some (b.toNat % 16) → Writes l bs →
        Writes (c :: d :: l) (b :: bs)

theorem hexText_cons (b : UInt8) (bs : List UInt8) :
    hexText (b :: bs) = hexChar (b.toNat / 16) :: hexChar (b.toNat % 16) :: hexText bs := by
  rw [hexText, List.flatMap_cons, hex2_byte]
  rfl

theorem writes_hexText (bs : List UInt8) : Writes (hexText bs) bs := by
  induction bs with
  | nil => exact .nil
  | cons b bs ih =>
    have := b.toNat_lt
    rw [hexText_cons]
    exact .cons (hexDigit_hexChar (by omega)) (hexDigit_hexChar (by omega)) ih

variable {bs : List UInt8} {l : List Char}

theorem Writes.length (h : Writes l bs) :
    l.length = 2 * bs.length := by
  induction h with
  | nil => rfl
  | cons _ _ _ ih =>
    simp only [List.length_cons, ih]
    omega

/-- In lower case they are those of `%02x`. -/
theorem Writes.toLower (h : Writes l bs) :
    l.map Char.toLower = hexText bs := by
  induction h with
  | nil => rfl
  | cons hc hd _ ih =>
    rw [List.map_cons, List.map_cons, (toLower_of_hexDigit hc).2, (toLower_of_hexDigit hd).2, ih,
      hexText_cons]

/-- **Reading them** gives the number of the bytes, the first one on top. -/
theorem Writes.simpleStrtoul {l rest : List Char} (h : Writes l bs)
    (hrest : ∀ c ∈ rest.head?, hexDigit c = none) (result : ℕ) :
    Pit.simpleStrtoul result (l ++ rest) = result * 256 ^ bs.length + ofLe bs.reverse := by
  induction h generalizing result with
  | nil =>
    cases rest with
    | nil => simp [Pit.simpleStrtoul, ofLe]
    | cons c rest => simp [Pit.simpleStrtoul, ofLe, hrest c rfl]
  | @cons c d l b bs hc hd _ ih =>
    have hb := b.toNat_lt
    simp only [List.cons_append, Pit.simpleStrtoul, hc, hd]
    rw [ih, List.reverse_cons, ofLe_append, List.length_reverse, List.length_cons, ofLe, ofLe,
      show (result * 16 + b.toNat / 16) * 16 + b.toNat % 16 = result * 256 + b.toNat by omega,
      pow_succ]
    ring

/-- Digits, two for each byte, write some bytes. -/
theorem exists_writes (n : ℕ) (l : List Char) (hl : l.length = 2 * n)
    (hdigits : ∀ c ∈ l, (hexDigit c).isSome) : ∃ bs, bs.length = n ∧ Writes l bs := by
  induction n generalizing l with
  | zero => exact ⟨[], rfl, by rw [List.length_eq_zero_iff.1 hl]; exact .nil⟩
  | succ n ih =>
    match l, hl, hdigits with
    | c :: d :: l, hl, hdigits =>
      simp only [List.length_cons] at hl
      obtain ⟨bs, hbs, hrest⟩ := ih l (by omega) fun x hx => hdigits x (by simp [hx])
      obtain ⟨v, hv⟩ := Option.isSome_iff_exists.1 (hdigits c (by simp))
      obtain ⟨w, hw⟩ := Option.isSome_iff_exists.1 (hdigits d (by simp))
      have hv16 := (toLower_of_hexDigit hv).1
      have hw16 := (toLower_of_hexDigit hw).1
      have hbyte : (UInt8.ofNat (v * 16 + w)).toNat = v * 16 + w := by
        rw [UInt8.toNat_ofNat']
        omega
      refine ⟨UInt8.ofNat (v * 16 + w) :: bs, by rw [List.length_cons, hbs], .cons ?_ ?_ hrest⟩
      · rw [hbyte, show (v * 16 + w) / 16 = v by omega, hv]
      · rw [hbyte, show (v * 16 + w) % 16 = w by omega, hw]

/-! ### Texts -/

/-- **A text of an identifier**, in upper or lower case. -/
def IsText (uid : List Char) (g : Groups) : Prop :=
  ∃ a b c d e, Writes a g.time ∧ Writes b g.mid ∧ Writes c g.version ∧ Writes d g.seq ∧
    Writes e g.node ∧ uid = a ++ '-' :: (b ++ '-' :: (c ++ '-' :: (d ++ '-' :: e)))

theorem isText_text (g : Groups) : IsText g.text g :=
  ⟨_, _, _, _, _, writes_hexText _, writes_hexText _, writes_hexText _, writes_hexText _,
    writes_hexText _, rfl⟩

variable {uid : List Char} {g : Groups}

theorem IsText.toLower (h : IsText uid g) :
    uid.map Char.toLower = g.text := by
  obtain ⟨a, b, c, d, e, ha, hb, hc, hd, he, rfl⟩ := h
  simp only [List.map_append, List.map_cons, ha.toLower, hb.toLower, hc.toLower, hd.toLower,
    he.toLower]
  rfl

/-- The bytes of a group that is read as a number. -/
theorem Writes.le_eq {l rest : List Char} (h : Writes l bs) (n : ℕ)
    (hn : bs.length = n) (hrest : ∀ c ∈ rest.head?, hexDigit c = none) :
    le n (Pit.simpleStrtoul 0 (l ++ rest)) = bs.reverse := by
  rw [h.simpleStrtoul hrest, Nat.zero_mul, Nat.zero_add, ← hn, ← List.length_reverse, le_ofLe]

/-- **Its groups are decoded one by one.** -/
theorem IsText.uidStrToBin (h : IsText uid g) (hvalid : uidStrValid uid = true) (std : Bool) :
    Pit.uidStrToBin uid std = some (g.bin std) := by
  obtain ⟨a, b, c, d, e, ha, hb, hc, hd, he, rfl⟩ := h
  obtain ⟨h₁, h₂, h₃, h₄, h₅⟩ := g.lengths
  have hdash : ∀ (l : List Char), ∀ c ∈ ('-' :: l).head?, hexDigit c = none := by
    rintro l c hc
    cases hc
    decide
  have hla := ha.length
  have hlb := hb.length
  have hlc := hc.length
  have hld := hd.length
  -- each group starts where the dashes in front of it end
  have hskip (k : ℕ) (x y : List Char) (hx : x.length = k) : (x ++ '-' :: y).drop (k + 1) = y := by
    rw [List.drop_append, hx, Nat.add_sub_cancel_left, List.drop_eq_nil_of_le (by omega)]
    rfl
  have hb' := hskip 8 a (b ++ '-' :: (c ++ '-' :: (d ++ '-' :: e))) (by omega)
  have hc' := hskip 4 b (c ++ '-' :: (d ++ '-' :: e)) (by omega)
  have hd' := hskip 4 c (d ++ '-' :: e) (by omega)
  have he' := hskip 4 d e (by omega)
  rw [Pit.uidStrToBin, if_pos hvalid]
  have hc'' : (a ++ '-' :: (b ++ '-' :: (c ++ '-' :: (d ++ '-' :: e)))).drop 14 =
      c ++ '-' :: (d ++ '-' :: e) := by
    rw [show 14 = 9 + 5 from rfl, ← List.drop_drop, hb', hc']
  have hd'' : (a ++ '-' :: (b ++ '-' :: (c ++ '-' :: (d ++ '-' :: e)))).drop 19 = d ++ '-' :: e := by
    rw [show 19 = 14 + 5 from rfl, ← List.drop_drop, hc'', hd']
  have he'' : (a ++ '-' :: (b ++ '-' :: (c ++ '-' :: (d ++ '-' :: e)))).drop 24 = e ++ [] := by
    rw [show 24 = 19 + 5 from rfl, ← List.drop_drop, hd'', he', List.append_nil]
  simp only [hb', hc'', hd'', he'', List.drop_zero]
  rw [ha.le_eq 4 h₁ (hdash _), hb.le_eq 2 h₂ (hdash _), hc.le_eq 2 h₃ (hdash _),
    hd.le_eq 2 h₄ (hdash _), he.le_eq 6 h₅ (by simp)]
  cases std <;> simp [Groups.bin]

/-- A character of what has a dash behind its first part. -/
theorem getD_dash (x y : List Char) (i : ℕ) : (x ++ '-' :: y).getD i ' ' =
    if i < x.length then x.getD i ' ' else if i = x.length then '-'
      else y.getD (i - (x.length + 1)) ' ' := by
  split_ifs with h₁ h₂
  · exact List.getD_append _ _ _ _ h₁
  · rw [List.getD_append_right _ _ _ _ (by omega), h₂, Nat.sub_self]
    rfl
  · rw [List.getD_append_right _ _ _ _ (by omega),
      show i - x.length = (i - (x.length + 1)) + 1 by omega, List.getD_cons_succ]

theorem Writes.digit (h : Writes l bs) {i : ℕ}
    (hi : i < l.length) : (hexDigit (l.getD i ' ')).isSome := by
  have hall : ∀ c ∈ l, (hexDigit c).isSome := by
    clear hi
    induction h with
    | nil => simp
    | cons hc hd _ ih => simpa [hc, hd] using ih
  rw [List.getD_eq_getElem _ _ hi]
  exact hall _ (List.getElem_mem hi)

theorem IsText.valid (h : IsText uid g) : uidStrValid uid = true := by
  obtain ⟨a, b, c, d, e, ha, hb, hc, hd, he, rfl⟩ := h
  obtain ⟨h₁, h₂, h₃, h₄, h₅⟩ := g.lengths
  have hla : a.length = 8 := by rw [ha.length, h₁]
  have hlb : b.length = 4 := by rw [hb.length, h₂]
  have hlc : c.length = 4 := by rw [hc.length, h₃]
  have hld : d.length = 4 := by rw [hd.length, h₄]
  have hle : e.length = 12 := by rw [he.length, h₅]
  simp only [uidStrValid, Bool.and_eq_true, decide_eq_true_eq, List.all_eq_true, List.mem_range,
    List.length_append, List.length_cons]
  constructor
  · omega
  · intro i hi
    rw [getD_dash, getD_dash, getD_dash, getD_dash, hla, hlb, hlc, hld]
    by_cases hdash : i = 8 ∨ i = 13 ∨ i = 18 ∨ i = 23
    · rcases hdash with rfl | rfl | rfl | rfl <;> rfl
    · rw [if_neg hdash]
      -- the character lies in one of the groups
      by_cases hi₁ : i < 8
      · rw [if_pos hi₁]
        exact ha.digit (by omega)
      rw [if_neg hi₁, if_neg (by omega)]
      by_cases hi₂ : i - 9 < 4
      · rw [if_pos hi₂]
        exact hb.digit (by omega)
      rw [if_neg hi₂, if_neg (by omega)]
      by_cases hi₃ : i - 9 - 5 < 4
      · rw [if_pos hi₃]
        exact hc.digit (by omega)
      rw [if_neg hi₃, if_neg (by omega)]
      by_cases hi₄ : i - 9 - 5 - 5 < 4
      · rw [if_pos hi₄]
        exact hd.digit (by omega)
      rw [if_neg hi₄, if_neg (by omega)]
      exact he.digit (by omega)

/-- What `uid_str_valid` accepts is the text of a GUID. -/
theorem exists_isText (h : uidStrValid uid = true) : ∃ g, IsText uid g := by
  simp only [uidStrValid, Bool.and_eq_true, decide_eq_true_eq, List.all_eq_true,
    List.mem_range] at h
  obtain ⟨hlen, hchars⟩ := h
  have hgroup (i n : ℕ) (hi : i + 2 * n ≤ 36) (hno : ∀ j, i ≤ j → j < i + 2 * n →
      ¬ (j = 8 ∨ j = 13 ∨ j = 18 ∨ j = 23)) :
      ∃ bs, bs.length = n ∧ Writes ((uid.drop i).take (2 * n)) bs := by
    refine exists_writes n _ (by simp only [List.length_take, List.length_drop]; omega) ?_
    intro c hc
    obtain ⟨j, hj, rfl⟩ := List.getElem_of_mem hc
    simp only [List.length_take, List.length_drop] at hj
    have := hchars (i + j) (by omega)
    rw [if_neg (hno _ (by omega) (by omega)), List.getD_eq_getElem _ _ (by omega)] at this
    simpa using this
  have hdash (i : ℕ) (hi : i = 8 ∨ i = 13 ∨ i = 18 ∨ i = 23) :
      uid.drop i = '-' :: uid.drop (i + 1) := by
    have := hchars i (by omega)
    rw [if_pos hi, decide_eq_true_eq, List.getD_eq_getElem _ _ (by omega)] at this
    rw [List.drop_eq_getElem_cons (by omega), this]
  obtain ⟨time, h₁, ha⟩ := hgroup 0 4 (by omega) (by omega)
  obtain ⟨mid, h₂, hb⟩ := hgroup 9 2 (by omega) (by omega)
  obtain ⟨version, h₃, hc⟩ := hgroup 14 2 (by omega) (by omega)
  obtain ⟨seq, h₄, hd⟩ := hgroup 19 2 (by omega) (by omega)
  obtain ⟨node, h₅, he⟩ := hgroup 24 6 (by omega) (by omega)
  refine ⟨⟨time, mid, version, seq, node, h₁, h₂, h₃, h₄, h₅⟩, _, _, _, _, _, ha, hb, hc, hd, he, ?_⟩
  have hcut (i n : ℕ) : uid.drop i = (uid.drop i).take n ++ uid.drop (i + n) := by
    rw [← List.drop_drop, List.take_append_drop]
  have hlast : uid.drop 36 = [] := List.drop_eq_nil_of_le (by omega)
  have h₁ := hcut 0 8
  have h₂ := hcut 9 4
  have h₃ := hcut 14 4
  have h₄ := hcut 19 4
  have h₅ := hcut 24 12
  rw [hlast, List.append_nil] at h₅
  rw [hdash 8 (by omega), h₂, hdash 13 (by omega), h₃, hdash 18 (by omega), h₄,
    hdash 23 (by omega), h₅] at h₁
  exact h₁

/-- The encoder writes the text of the groups. -/
theorem uidBinToStr_bin (g : Groups) (std : Bool) : uidBinToStr (g.bin std) std = g.text := by
  obtain ⟨time, mid, version, seq, node, h₁, h₂, h₃, h₄, h₅⟩ := g
  match time, mid, version, seq, node, h₁, h₂, h₃, h₄, h₅ with
  | [_, _, _, _], [_, _], [_, _], [_, _], [_, _, _, _, _, _], _, _, _, _, _ =>
    simp only [uidBinToStr, Groups.text, hexText, hex2_byte]
    cases std <;> rfl

/-- Sixteen bytes are the groups of some identifier. -/
theorem exists_bin (uid : List UInt8) (std : Bool) (h : uid.length = 16) :
    ∃ g : Groups, g.bin std = uid := by
  match uid, h with
  | [a, b, c, d, e, f, g, h, i, j, k, l, m, n, o, p], _ =>
    cases std with
    | true => exact ⟨⟨[a, b, c, d], [e, f], [g, h], [i, j], [k, l, m, n, o, p],
        by simp⟩, rfl⟩
    | false => exact ⟨⟨[d, c, b, a], [f, e], [h, g], [i, j], [k, l, m, n, o, p],
        by simp⟩, rfl⟩

/-- **GUID text round trip**: the text of sixteen bytes is accepted and decodes to them, in either
format; and what is accepted is, up to case, the text of the bytes that it decodes to. -/
theorem uid_round_trip :
    (∀ (uid : List UInt8) (std : Bool), uid.length = 16 → uidStrValid (uidBinToStr uid std) = true ∧
        uidStrToBin (uidBinToStr uid std) std = some uid) ∧
    ∀ (uid : List Char) (std : Bool), uidStrValid uid = true →
      ∃ bin, uidStrToBin uid std = some bin ∧ uidBinToStr bin std = uid.map Char.toLower := by
  constructor
  · intro uid std hlen
    obtain ⟨g, rfl⟩ := exists_bin uid std hlen
    rw [uidBinToStr_bin]
    exact ⟨(isText_text g).valid, (isText_text g).uidStrToBin (isText_text g).valid std⟩
  · intro uid std hvalid
    obtain ⟨g, hg⟩ := exists_isText hvalid
    exact ⟨g.bin std, hg.uidStrToBin hvalid std, (uidBinToStr_bin g std).trans hg.toLower.symm⟩

end Pit
end LittleKernel
