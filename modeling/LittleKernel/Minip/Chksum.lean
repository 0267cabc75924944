/-
# The two checksum routines

`lib/minip/chksum.c`: `ones_sum16` and `rfc1701_chksum` as in `LittleKernel.Minip.Receive`;
`cksum_pheader` of `lib/minip/tcp.c`.

The Internet checksum is the complement of a sum of 16-bit words in which every carry comes
back in at the bottom, a last odd byte being a word with a zero byte behind it.
`ones_sum16` folds until no carry is left.  `rfc1701_chksum` folds once, into 16 bits, and
leaves a last odd byte out.

TCP segments are filled and checked with the former, IP headers with the latter, and so are
the ICMP messages that are sent.
-/

import LittleKernel.Minip.Receive

namespace LittleKernel
namespace Minip

open Bytes Word

/-! ### Sums of words -/

/-- Folds until no carry is left. -/
def foldAll (sum : ℕ) : ℕ :=
  if sum < 65536 then sum else foldAll (foldSum sum)
termination_by sum
decreasing_by
  unfold foldSum
  omega

/-- **The one's complement sum** of the words of a buffer. -/
def onesComplementSum (l : List UInt8) : ℕ := foldAll (words16 l).sum

/-- A last odd byte. -/
def oddByte (l : List UInt8) : ℕ := if l.length % 2 = 1 then (l.getLastD 0).toNat else 0

/-- The sum of the whole words of a buffer. -/
def wholeWords (l : List UInt8) : ℕ := (words16 (l.take (l.length / 2 * 2))).sum

/-- The two halves of that sum make a carry. -/
def Carries (l : List UInt8) : Prop := 65536 ≤ wholeWords l % 65536 + wholeWords l / 65536

/-- The number that all folds of a sum end in. -/
def residue (sum : ℕ) : ℕ := if sum = 0 then 0 else (sum - 1) % 65535 + 1

theorem residue_foldSum (sum : ℕ) : residue (foldSum sum) = residue sum := by
  unfold residue foldSum
  split_ifs <;> omega

theorem foldAll_eq (sum : ℕ) : foldAll sum = residue sum := by
  induction sum using Nat.strong_induction_on with
  | _ sum ih =>
    rw [foldAll]
    split_ifs with h
    · unfold residue
      split_ifs <;> omega
    · rw [ih (foldSum sum) (by unfold foldSum; omega), residue_foldSum]

/-- Two folds are enough for 32 bits. -/
theorem foldSum_foldSum {sum : ℕ} (h : sum < 2 ^ 32) : foldSum (foldSum sum) = residue sum := by
  unfold residue foldSum
  split_ifs <;> omega

theorem residue_add (a b : ℕ) : residue (residue a + b) = residue (a + b) := by
  unfold residue
  split_ifs <;> omega

theorem residue_le (a : ℕ) : residue a ≤ 65535 := by
  unfold residue
  split_ifs <;> omega

variable {l : List UInt8}

theorem words16_append (h : l.length % 2 = 0) (m : List UInt8) :
    words16 (l ++ m) = words16 l ++ words16 m := by
  induction l using words16.induct with
  | case1 a b l ih =>
    rw [List.length_cons, List.length_cons] at h
    rw [List.cons_append, List.cons_append, words16, words16, List.cons_append, ih (by omega)]
  | case2 a => simp at h
  | case3 => rfl

theorem words16_sum_le (l : List UInt8) :
    (words16 l).sum ≤ 65535 * (l.length / 2) + 255 * (l.length % 2) := by
  induction l using words16.induct with
  | case1 a b l ih =>
    have ha := a.toNat_lt
    have hb := b.toNat_lt
    rw [words16, List.sum_cons, List.length_cons, List.length_cons]
    omega
  | case2 a =>
    have ha := a.toNat_lt
    rw [words16, List.sum_singleton, List.length_singleton]
    omega
  | case3 => exact Nat.zero_le _

theorem wholeWords_cons (a b : UInt8) (l : List UInt8) :
    wholeWords (a :: b :: l) = a.toNat + 256 * b.toNat + wholeWords l := by
  rw [wholeWords, show (a :: b :: l).length / 2 * 2 = l.length / 2 * 2 + 1 + 1 by
    simp only [List.length_cons]; omega, List.take_succ_cons, List.take_succ_cons, words16,
    List.sum_cons]
  rfl

theorem oddByte_cons (a b : UInt8) (l : List UInt8) : oddByte (a :: b :: l) = oddByte l := by
  cases l with
  | nil => simp [oddByte]
  | cons c l =>
    rw [oddByte, oddByte, show (a :: b :: c :: l).length % 2 = (c :: l).length % 2 by
      simp only [List.length_cons]; omega]
    simp

/-- A buffer is its whole words and a last odd byte. -/
theorem words16_sum (l : List UInt8) : (words16 l).sum = wholeWords l + oddByte l := by
  induction l using words16.induct with
  | case1 a b l ih =>
    rw [words16, List.sum_cons, ih, wholeWords_cons, oddByte_cons, Nat.add_assoc _ (wholeWords l)]
  | case2 a => simp [words16, wholeWords, oddByte]
  | case3 => rfl

theorem wholeWords_append (h : l.length % 2 = 0) (m : List UInt8) :
    wholeWords (l ++ m) = (words16 l).sum + wholeWords m := by
  induction l using words16.induct with
  | case1 a b l ih =>
    rw [List.length_cons, List.length_cons] at h
    rw [List.cons_append, List.cons_append, wholeWords_cons, ih (by omega), words16,
      List.sum_cons, Nat.add_assoc _ (words16 l).sum]
  | case2 a => simp at h
  | case3 => simp [words16]

/-- What a packet has at most leaves room for a sum to start with. -/
theorem words16_sum_lt (h : l.length ≤ 65535) :
    (words16 l).sum + 65536 < 2 ^ 31 := by
  have hle := words16_sum_le l
  omega

theorem wholeWords_lt (h : l.length ≤ 65535) : wholeWords l < 2 ^ 31 := by
  have hlt := words16_sum_lt h
  have hsplit := words16_sum l
  omega

/-! ### The routines -/

/-- **`ones_sum16`** over no more bytes than a packet has. -/
theorem onesSum16_eq {sum : ℕ} (h : sum + (words16 l).sum < 2 ^ 31) :
    onesSum16 sum l = residue (sum + (words16 l).sum) := by
  have hfold : ∀ (ws : List ℕ) (sum : ℕ), sum + ws.sum < 2 ^ 31 →
      ws.foldl (fun sum w => if 2 ^ 31 ≤ u32 (sum + w) then foldSum (u32 (sum + w))
        else u32 (sum + w)) sum = sum + ws.sum := by
    intro ws
    induction ws with
    | nil => exact fun sum _ => rfl
    | cons w ws ih =>
      intro sum h
      rw [List.sum_cons] at h
      have hstep : u32 (sum + w) = sum + w := u32_of_lt (by omega)
      rw [List.foldl_cons, hstep, if_neg (by omega), ih _ (by omega), List.sum_cons,
        Nat.add_assoc]
  rw [onesSum16, hfold _ _ h, foldSum_foldSum (by omega)]

/-- **`rfc1701_chksum`** of no more bytes than a packet has. -/
theorem rfc1701Chksum_eq (h : l.length ≤ 65535) :
    rfc1701Chksum l = 65535 - (wholeWords l % 65536 + wholeWords l / 65536) % 65536 := by
  have hlt := wholeWords_lt h
  have hsum : u32 (wholeWords l) = wholeWords l := u32_of_lt (by omega)
  rw [rfc1701Chksum]
  change 65535 - (u32 (wholeWords l) % 65536 + u32 (wholeWords l) / 65536) % 65536 = _
  rw [hsum]

/-! ### A packet whose checksum is filled in -/

/-- A message with its checksum at an even place. -/
def filled (chksum : List UInt8 → ℕ) (front back : List UInt8) : List UInt8 :=
  front ++ (le 2 (chksum (front ++ ([0, 0] ++ back))) ++ back)

variable {front back : List UInt8}

/-- The sums of a message that has `c` in the place of its checksum. -/
theorem sums_filled (hf : front.length % 2 = 0) {c : ℕ} (hc : c < 65536) :
    wholeWords (front ++ (le 2 c ++ back)) = wholeWords (front ++ ([0, 0] ++ back)) + c ∧
      (words16 (front ++ (le 2 c ++ back))).sum =
        (words16 (front ++ ([0, 0] ++ back))).sum + c := by
  have hle : ∀ c : ℕ, c < 65536 → (words16 (le 2 c)).sum = c := by
    intro c hc
    simp [words16, le]
    omega
  have hzero : (words16 [0, 0]).sum = 0 := rfl
  rw [wholeWords_append hf, wholeWords_append (by rw [length_le]), wholeWords_append hf,
    wholeWords_append rfl, words16_append hf, words16_append (by rw [length_le]),
    words16_append hf, words16_append rfl]
  simp only [List.sum_append, hle c hc, hzero]
  omega

/-- A sum and its complement. -/
theorem residue_complement (x : ℕ) : residue (x + (65535 - residue x)) = 65535 := by
  unfold residue
  split_ifs <;> omega

/-- **TCP:** what `tcp_send` fills in `tcp_input` finds right. -/
theorem cksumPheader_filled (src dst : UInt32)
    (hf : front.length % 2 = 0) (hlen : front.length + 2 + back.length ≤ 65535) :
    cksumPheader src dst (filled (cksumPheader src dst) front back) = 0 := by
  have hlen' : (front ++ ([0, 0] ++ back)).length ≤ 65535 := by
    simp only [List.length_append, List.length_cons, List.length_nil]
    omega
  have hsame : ∀ c, (front ++ (le 2 c ++ back)).length = (front ++ ([0, 0] ++ back)).length := by
    intro c
    simp only [List.length_append, length_le, List.length_cons, List.length_nil]
  have hsum := words16_sum_lt hlen'
  -- the sum of the pseudo header, which does not depend on the checksum
  obtain ⟨s, hs, hpseudo⟩ : ∃ s ≤ 65535, ∀ l : List UInt8,
      l.length = (front ++ ([0, 0] ++ back)).length →
        cksumPheader src dst l = 65535 - onesSum16 s l := by
    refine ⟨onesSum16 0 (putAddr src ++ putAddr dst ++ [0, 6] ++
      put16 (front ++ ([0, 0] ++ back)).length), ?_, fun l hl => by rw [cksumPheader, hl]⟩
    rw [onesSum16_eq]
    · exact residue_le _
    · have hle := words16_sum_le (putAddr src ++ putAddr dst ++ [0, 6] ++
        put16 (front ++ ([0, 0] ++ back)).length)
      have htwelve : (putAddr src ++ putAddr dst ++ ([0, 6] : List UInt8) ++
          put16 (front ++ ([0, 0] ++ back)).length).length = 12 := by
        simp [putAddr, put16]
      rw [htwelve] at hle
      omega
  have hc : 65535 - onesSum16 s (front ++ ([0, 0] ++ back)) < 65536 := by omega
  have hsum' := words16_sum_lt ((hsame _).trans_le hlen' :
    (front ++ (le 2 (65535 - onesSum16 s (front ++ ([0, 0] ++ back))) ++ back)).length ≤ 65535)
  rw [filled, hpseudo _ rfl, hpseudo _ (hsame _), onesSum16_eq (by omega),
    (sums_filled hf hc).2, onesSum16_eq (by omega), ← Nat.add_assoc, residue_complement]

/-- **IP:** what `minip_build_ipv4_hdr` fills in `handle_ipv4_packet` finds right unless the
sum of the header carries. -/
theorem rfc1701Chksum_filled
    (hf : front.length % 2 = 0) (hlen : front.length + 2 + back.length ≤ 65535) :
    rfc1701Chksum (filled rfc1701Chksum front back) = 0 ↔
      ¬ Carries (front ++ ([0, 0] ++ back)) := by
  have hlen' : (front ++ ([0, 0] ++ back)).length ≤ 65535 := by
    simp only [List.length_append, List.length_cons, List.length_nil]
    omega
  have hlen'' : ∀ c, (front ++ (le 2 c ++ back)).length ≤ 65535 := by
    intro c
    simp only [List.length_append, length_le]
    omega
  have hw := wholeWords_lt hlen'
  rw [filled, rfc1701Chksum_eq (hlen'' _), Carries,
    (sums_filled hf (by rw [rfc1701Chksum_eq hlen']; omega)).1, rfc1701Chksum_eq hlen']
  generalize wholeWords (front ++ ([0, 0] ++ back)) = w at hw ⊢
  obtain ⟨lo, hi, rfl, hlo⟩ : ∃ lo hi, w = 65536 * hi + lo ∧ lo < 65536 :=
    ⟨w % 65536, w / 65536, (Nat.div_add_mod w 65536).symm, Nat.mod_lt _ (by norm_num)⟩
  rw [show (65536 * hi + lo) % 65536 = lo by omega, show (65536 * hi + lo) / 65536 = hi by omega]
  by_cases hcarry : 65536 ≤ lo + hi
  · -- the carry of the second fold is lost on both sides
    rw [show (lo + hi) % 65536 = lo + hi - 65536 by omega,
      show 65536 * hi + lo + (65535 - (lo + hi - 65536)) = 65536 * (hi + 1) + (65535 - hi) by omega,
      show (65536 * (hi + 1) + (65535 - hi)) % 65536 = 65535 - hi by omega,
      show (65536 * (hi + 1) + (65535 - hi)) / 65536 = hi + 1 by omega]
    omega
  · rw [show (lo + hi) % 65536 = lo + hi by omega,
      show 65536 * hi + lo + (65535 - (lo + hi)) = 65536 * hi + (65535 - hi) by omega,
      show (65536 * hi + (65535 - hi)) % 65536 = 65535 - hi by omega,
      show (65536 * hi + (65535 - hi)) / 65536 = hi by omega]
    omega

/-- The two routines agree where neither the odd byte nor the carry is there. -/
theorem rfc1701Chksum_eq_iff (hlen : l.length ≤ 65535) :
    rfc1701Chksum l = 65535 - onesSum16 0 l ↔ oddByte l = 0 ∧ ¬ Carries l := by
  have hw := wholeWords_lt hlen
  have hb : oddByte l < 256 := by
    unfold oddByte
    split_ifs
    · exact (l.getLastD 0).toNat_lt
    · norm_num
  have hsum := words16_sum_lt hlen
  rw [rfc1701Chksum_eq hlen, onesSum16_eq (by omega), words16_sum, Carries, Nat.zero_add]
  generalize wholeWords l = w at hw ⊢
  generalize oddByte l = b at hb ⊢
  obtain ⟨lo, hi, rfl, hlo⟩ : ∃ lo hi, w = 65536 * hi + lo ∧ lo < 65536 :=
    ⟨w % 65536, w / 65536, (Nat.div_add_mod w 65536).symm, Nat.mod_lt _ (by norm_num)⟩
  rw [show (65536 * hi + lo) % 65536 = lo by omega, show (65536 * hi + lo) / 65536 = hi by omega]
  have hres : residue (65536 * hi + lo + b) = residue (lo + hi + b) := by
    unfold residue
    split_ifs <;> omega
  have hle := residue_le (lo + hi + b)
  rw [hres]
  rw [residue] at hle ⊢
  split_ifs at hle ⊢ with hzero
  · omega
  · by_cases hcarry : 65536 ≤ lo + hi
    · rw [show (lo + hi) % 65536 = lo + hi - 65536 by omega]
      omega
    · rw [show (lo + hi) % 65536 = lo + hi by omega]
      omega

theorem onesSum16_split (hlen : l.length ≤ 65535) {k : ℕ} (hk : 2 * k ≤ l.length) :
    onesSum16 (onesSum16 0 (l.take (2 * k))) (l.drop (2 * k)) = onesComplementSum l := by
  have hparts : (words16 l).sum = (words16 (l.take (2 * k))).sum + (words16 (l.drop (2 * k))).sum := by
    rw [← List.sum_append, ← words16_append (by rw [List.length_take]; omega),
      List.take_append_drop]
  have hle := words16_sum_le l
  have hres := residue_le (0 + (words16 (l.take (2 * k))).sum)
  rw [onesSum16_eq (l := l.take (2 * k)) (by omega), onesSum16_eq (by omega), residue_add,
    onesComplementSum, foldAll_eq, hparts, Nat.zero_add]

/-- **Where the two routines agree:** `ones_sum16` is the Internet checksum however the buffer
is split, and what TCP fills in is found right; `rfc1701_chksum` is its complement, and what IP
fills in is found right, where there is no odd byte to leave out and no carry to lose. -/
theorem checksums_agree_iff {l front back : List UInt8} (hl : l.length ≤ 65535)
    (hf : front.length % 2 = 0) (hlen : front.length + 2 + back.length ≤ 65535) :
    ((∀ k, 2 * k ≤ l.length →
        onesSum16 (onesSum16 0 (l.take (2 * k))) (l.drop (2 * k)) = onesComplementSum l) ∧
      rfc1701Chksum l = 65535 - onesSum16 0 l ∧
      (∀ src dst, cksumPheader src dst (filled (cksumPheader src dst) front back) = 0) ∧
      rfc1701Chksum (filled rfc1701Chksum front back) = 0) ↔
    (oddByte l = 0 ∧ ¬ Carries l) ∧ ¬ Carries (front ++ ([0, 0] ++ back)) := by
  rw [rfc1701Chksum_eq_iff hl, rfc1701Chksum_filled hf hlen]
  constructor
  · exact fun ⟨_, h, _, h'⟩ => ⟨h, h'⟩
  · exact fun ⟨h, h'⟩ => ⟨fun k hk => onesSum16_split hl hk, h,
      fun src dst => cksumPheader_filled src dst hf hlen, h'⟩

/-- Three words and a zero byte, and an IP header between two addresses, as
`minip_build_ipv4_hdr` lays it out. -/
theorem checksums_agree_iff_header :
    (∀ k, 2 * k ≤ 7 →
        onesSum16 (onesSum16 0 (([0, 128, 0, 128, 7, 0, 0] : List UInt8).take (2 * k)))
          (([0, 128, 0, 128, 7, 0, 0] : List UInt8).drop (2 * k)) =
            onesComplementSum [0, 128, 0, 128, 7, 0, 0]) ∧
      rfc1701Chksum [0, 128, 0, 128, 7, 0, 0] = 65535 - onesSum16 0 [0, 128, 0, 128, 7, 0, 0] ∧
      (∀ src dst, cksumPheader src dst (filled (cksumPheader src dst)
        [0x45, 0, 0, 20, 0, 0, 0x40, 0, 64, 6] [10, 0, 0, 1, 10, 0, 0, 2]) = 0) ∧
      rfc1701Chksum (filled rfc1701Chksum [0x45, 0, 0, 20, 0, 0, 0x40, 0, 64, 6]
        [10, 0, 0, 1, 10, 0, 0, 2]) = 0 :=
  (@checksums_agree_iff [0, 128, 0, 128, 7, 0, 0] [0x45, 0, 0, 20, 0, 0, 0x40, 0, 64, 6]
    [10, 0, 0, 1, 10, 0, 0, 2] (by decide) (by decide) (by decide)).2
    ⟨⟨by decide, by rw [Carries]; decide⟩, by rw [Carries]; decide⟩

/-- One odd byte makes the routines differ, and between some addresses an IP header is filled
with a checksum that is then found wrong. -/
theorem checksums_disagree :
    rfc1701Chksum [1] = 65535 ∧ 65535 - onesSum16 0 [1] = 65534 ∧
      rfc1701Chksum (filled rfc1701Chksum [0x45, 0, 0, 20, 0, 0, 0x40, 0, 64, 6]
        [255, 255, 59, 229, 0, 0, 0, 0]) = 65535 := by
  decide +kernel

end Minip
end LittleKernel
