/-
# Scanning a foreign area: `lib/sysparam/sysparam.c`

`sysparam_scan` as in `LittleKernel.Sysparam`, over an area that may hold anything.  The loop
looks for the magic word by word and takes the lengths of what follows from the header it
expects there.  A record is compared with the end of the area only after its header was read,
and the end that it is compared with is `offset + len`, as if the position in the buffer were
one on the device.

`scanReads` are the windows of the buffer that the loop reads.  `Chain` says what a scan should
find: the records that lie in the area, each behind the one before it.
-/

import LittleKernel.Sysparam
import Mathlib.Logic.Relation

namespace LittleKernel
namespace Sysparam

open Bytes Memory Word

/-! ### What the loop reads -/

/-- What `sysparam_read_phys` reads: flags, name and data. -/
def readPhysReads (m : ℕ → UInt8) (sp : ℕ) : List (ℕ × ℕ) :=
  [(sp + 8, 4), (sp + 16, load16 m (sp + 12)),
    (sp + 16 + roundup (load16 m (sp + 12)) 4, load16 m (sp + 14))]

/-- **The windows of the buffer that `scanLoop` reads**, each with its length. -/
def scanReads (m : ℕ → UInt8) (offset len : ℕ) (mallocOk : ℕ → Bool) :
    ℕ → ℕ → List (ℕ × ℕ)
  | 0, _ => []
  | turns + 1, pos =>
    if pos < len then
      (pos, 4) ::
        if load32 m pos ≠ sysparamMagic then scanReads m offset len mallocOk turns (pos + 4)
        else
          -- the two lengths, and the checksum with what it covers
          (pos + 12, 4) ::
            if offset + len < pos + sysparamLen m pos then []
            else
              (pos + 8, sysparamLen m pos - 8) :: (pos + 4, 4) ::
                if load32 m (pos + 4) ≠ (sysparamCrc32 m pos).toNat then
                  scanReads m offset len mallocOk turns (pos + sysparamLen m pos)
                else
                  readPhysReads m pos ++
                    if mallocOk pos = false then []
                    else scanReads m offset len mallocOk turns (pos + sysparamLen m pos)
    else []

/-! ### What is promised, and when -/

/-- **The parameters of the records that lie in an area** from a position on.  A record that
does not end in the area is the end of the chain, and so is the last bit of the area that is
no whole word. -/
inductive Chain (m : ℕ → UInt8) (len : ℕ) : ℕ → List Param → Prop
  | finish {pos : ℕ} : len < pos + 4 → Chain m len pos []
  | skip {pos : ℕ} {ps : List Param} : pos + 4 ≤ len → load32 m pos ≠ sysparamMagic →
      Chain m len (pos + 4) ps → Chain m len pos ps
  | beyond {pos : ℕ} : pos + 4 ≤ len → load32 m pos = sysparamMagic →
      len < pos + sysparamLen m pos → Chain m len pos []
  | torn {pos : ℕ} {ps : List Param} : load32 m pos = sysparamMagic →
      pos + sysparamLen m pos ≤ len → load32 m (pos + 4) ≠ (sysparamCrc32 m pos).toNat →
      Chain m len (pos + sysparamLen m pos) ps → Chain m len pos ps
  | record {pos : ℕ} {ps : List Param} : load32 m pos = sysparamMagic →
      pos + sysparamLen m pos ≤ len → load32 m (pos + 4) = (sysparamCrc32 m pos).toNat →
      Chain m len (pos + sysparamLen m pos) ps → Chain m len pos (sysparamReadPhys m pos :: ps)

/-- The buffer was allocated and read. -/
def ScanEnv.Loads (e : ScanEnv) (len : ℕ) : Prop :=
  e.bufOk = true ∧ e.readOk = true ∧ len < 2 ^ 31

/-- **What a scan promises.**  The loop reads inside the buffer and ends, and the parameters
that are added are those of the records in the area, as many of them as there is memory for. -/
structure Scans (s : State) (b offset len : ℕ) (e : ScanEnv) (r : State × Status) : Prop where
  reads : e.Loads len → ∀ w ∈ scanReads (s.buffer b offset len e.heap) offset len e.mallocOk len 0,
    w.1 + w.2 ≤ len
  ends : ∀ turns, len ≤ turns →
    scanLoop (s.buffer b offset len e.heap) offset len e.mallocOk turns 0 =
      scanLoop (s.buffer b offset len e.heap) offset len e.mallocOk len 0
  added : ∃ added records, r.1.list = s.list ++ added ∧
    Chain (s.buffer b offset len fun _ => 0) len 0 records ∧ added <+: records ∧
    (r.2 = .ok → added = records)

/-- The loop moves on. -/
def Next (m : ℕ → UInt8) (offset len : ℕ) (mallocOk : ℕ → Bool) (pos pos' : ℕ) : Prop :=
  pos < len ∧ (load32 m pos ≠ sysparamMagic ∧ pos' = pos + 4 ∨
    load32 m pos = sysparamMagic ∧ pos + sysparamLen m pos ≤ offset + len ∧
      (load32 m (pos + 4) = (sysparamCrc32 m pos).toNat → mallocOk pos = true) ∧
      pos' = pos + sysparamLen m pos)

/-- **A word is left where the loop looks for the magic, a header where it finds it**, and a
record that ends before `offset + len` ends in the area. -/
def Meets (m : ℕ → UInt8) (offset len pos : ℕ) : Prop :=
  pos < len → pos + 4 ≤ len ∧ (load32 m pos = sysparamMagic → pos + 16 ≤ len ∧
    (pos + sysparamLen m pos ≤ offset + len → pos + sysparamLen m pos ≤ len))

/-! ### The reads -/

section Loop

variable {m : ℕ → UInt8} {offset len : ℕ} {mallocOk : ℕ → Bool}

theorem roundup_le (a : ℕ) : a ≤ roundup a 4 := by
  unfold roundup
  omega

/-- A record's flags, name and data lie in it. -/
theorem readPhysReads_inside {pos : ℕ} (h : pos + sysparamLen m pos ≤ len) :
    ∀ w ∈ readPhysReads m pos, w.1 + w.2 ≤ len := by
  have hname := roundup_le (load16 m (pos + 12))
  have hdata := roundup_le (load16 m (pos + 14))
  unfold sysparamLen at h
  intro w hw
  simp only [readPhysReads, List.mem_cons, List.not_mem_nil, or_false] at hw
  rcases hw with rfl | rfl | rfl
  all_goals
    simp only
    omega

/-- **The loop reads inside the buffer exactly where all positions it comes to are fit.** -/
theorem scanReads_inside_iff {turns pos : ℕ} (hturns : len ≤ pos + turns) :
    (∀ w ∈ scanReads m offset len mallocOk turns pos, w.1 + w.2 ≤ len) ↔
      ∀ q, Relation.ReflTransGen (Next m offset len mallocOk) pos q → Meets m offset len q := by
  induction turns generalizing pos with
  | zero =>
    refine iff_of_true (fun _ h => nomatch h) fun q hq hlt => ?_
    rcases Relation.ReflTransGen.cases_head hq with rfl | ⟨p, hnext, -⟩
    · omega
    · have := hnext.1
      omega
  | succ turns ih =>
    have h16 := sixteen_le_sysparamLen m pos
    rw [scanReads]
    by_cases hlt : pos < len
    swap
    · rw [if_neg hlt]
      refine iff_of_true (fun _ h => nomatch h) fun q hq hq' => ?_
      rcases Relation.ReflTransGen.cases_head hq with rfl | ⟨p, hnext, -⟩
      · exact absurd hq' hlt
      · exact absurd hnext.1 hlt
    rw [if_pos hlt, List.forall_mem_cons]
    simp only
    by_cases hmagic : load32 m pos = sysparamMagic
    swap
    · -- the next word
      rw [if_pos hmagic, ih (by omega)]
      constructor
      · rintro ⟨h4, hrest⟩ q hq
        rcases Relation.ReflTransGen.cases_head hq with rfl | ⟨p, hnext, hp⟩
        · exact fun _ => ⟨h4, fun h => absurd h hmagic⟩
        · obtain ⟨-, ⟨-, rfl⟩ | ⟨h, -⟩⟩ := hnext
          · exact hrest q hp
          · exact absurd h hmagic
      · intro h
        exact ⟨(h pos .refl hlt).1, fun q hq => h q (.head ⟨hlt, .inl ⟨hmagic, rfl⟩⟩ hq)⟩
    rw [if_neg (not_not.2 hmagic), List.forall_mem_cons]
    simp only
    by_cases hfar : offset + len < pos + sysparamLen m pos
    · -- the length ends the loop
      rw [if_pos hfar]
      constructor
      · rintro ⟨h4, h12, -⟩ q hq
        rcases Relation.ReflTransGen.cases_head hq with rfl | ⟨p, hnext, -⟩
        · exact fun _ => ⟨h4, fun _ => ⟨by omega, fun h => by omega⟩⟩
        · obtain ⟨-, ⟨h, -⟩ | ⟨-, h, -⟩⟩ := hnext
          · exact absurd hmagic h
          · omega
      · intro h
        obtain ⟨h4, hrec⟩ := h pos .refl hlt
        have := (hrec hmagic).1
        exact ⟨h4, by omega, fun _ h => nomatch h⟩
    rw [if_neg hfar, List.forall_mem_cons, List.forall_mem_cons]
    simp only
    by_cases hin : pos + sysparamLen m pos ≤ len
    swap
    · -- the checksum reads behind the buffer
      refine iff_of_false (fun h => ?_) fun h => ?_
      · have := h.2.2.1
        omega
      · exact hin (((h pos .refl hlt).2 hmagic).2 (by omega))
    have hmeets : Meets m offset len pos :=
      fun _ => ⟨by omega, fun _ => ⟨by omega, fun _ => hin⟩⟩
    have hrest : (∀ w ∈ (if load32 m (pos + 4) ≠ (sysparamCrc32 m pos).toNat then
          scanReads m offset len mallocOk turns (pos + sysparamLen m pos)
        else readPhysReads m pos ++ if mallocOk pos = false then []
          else scanReads m offset len mallocOk turns (pos + sysparamLen m pos)),
          w.1 + w.2 ≤ len) ↔
        ((load32 m (pos + 4) = (sysparamCrc32 m pos).toNat → mallocOk pos = true) →
          ∀ w ∈ scanReads m offset len mallocOk turns (pos + sysparamLen m pos),
            w.1 + w.2 ≤ len) := by
      by_cases hcrc : load32 m (pos + 4) = (sysparamCrc32 m pos).toNat
      · rw [if_neg (not_not.2 hcrc), List.forall_mem_append]
        cases hok : mallocOk pos with
        | false => simpa [hcrc] using readPhysReads_inside hin
        | true => simpa [hcrc] using fun _ => readPhysReads_inside hin
      · rw [if_pos hcrc]
        exact ⟨fun h _ => h, fun h => h fun hc => absurd hc hcrc⟩
    rw [hrest, ih (by omega)]
    constructor
    · rintro ⟨-, -, -, -, h⟩ q hq
      rcases Relation.ReflTransGen.cases_head hq with rfl | ⟨p, hnext, hp⟩
      · exact hmeets
      · obtain ⟨-, ⟨hm, -⟩ | ⟨-, -, hgo, rfl⟩⟩ := hnext
        · exact absurd hmagic hm
        · exact h hgo q hp
    · intro h
      refine ⟨by omega, by omega, by omega, by omega, fun hgo q hq => ?_⟩
      exact h q (.head ⟨hlt, .inr ⟨hmagic, by omega, hgo, rfl⟩⟩ hq)

/-- **The loop ends**: the turns are never what ends it. -/
theorem scanLoop_turns {turns turns' pos : ℕ} (h : len ≤ pos + turns) (h' : len ≤ pos + turns') :
    scanLoop m offset len mallocOk turns pos = scanLoop m offset len mallocOk turns' pos := by
  induction turns generalizing turns' pos with
  | zero =>
    cases turns' with
    | zero => rfl
    | succ turns' => rw [scanLoop, scanLoop, if_neg (by omega)]
  | succ turns ih =>
    have h16 := sixteen_le_sysparamLen m pos
    cases turns' with
    | zero => rw [scanLoop, scanLoop, if_neg (by omega)]
    | succ turns' =>
      rw [scanLoop, scanLoop, @ih turns' (pos + 4) (by omega) (by omega)]
      dsimp only
      rw [@ih turns' (pos + sysparamLen m pos) (by omega) (by omega)]

/-! ### The chain -/

theorem exists_chain (m : ℕ → UInt8) (len pos : ℕ) : ∃ ps, Chain m len pos ps := by
  induction h : len - pos using Nat.strong_induction_on generalizing pos with
  | _ n ih =>
    have h16 := sixteen_le_sysparamLen m pos
    rcases Nat.lt_or_ge len (pos + 4) with hlt | hge
    · exact ⟨[], .finish hlt⟩
    by_cases hmagic : load32 m pos = sysparamMagic
    swap
    · obtain ⟨ps, hps⟩ := ih (len - (pos + 4)) (by omega) (pos + 4) rfl
      exact ⟨ps, .skip hge hmagic hps⟩
    rcases Nat.lt_or_ge len (pos + sysparamLen m pos) with hfar | hin
    · exact ⟨[], .beyond hge hmagic hfar⟩
    obtain ⟨ps, hps⟩ := ih (len - (pos + sysparamLen m pos)) (by omega) _ rfl
    by_cases hcrc : load32 m (pos + 4) = (sysparamCrc32 m pos).toNat
    · exact ⟨_, .record hmagic hin hcrc hps⟩
    · exact ⟨ps, .torn hmagic hin hcrc hps⟩

/-- What a record says depends on its bytes only. -/
theorem record_congr {m m' : ℕ → UInt8} {pos : ℕ} (h : ∀ i < len, m' i = m i)
    (hin : pos + sysparamLen m pos ≤ len) :
    load32 m' (pos + 4) = load32 m (pos + 4) ∧ sysparamCrc32 m' pos = sysparamCrc32 m pos ∧
      sysparamReadPhys m' pos = sysparamReadPhys m pos := by
  have h16 := sixteen_le_sysparamLen m pos
  have hlen := sysparamLen_congr h (by omega : pos + 16 ≤ len)
  have hname : load16 m' (pos + 12) = load16 m (pos + 12) :=
    load16_congr fun i _ hi => h i (by omega)
  have hdata : load16 m' (pos + 14) = load16 m (pos + 14) :=
    load16_congr fun i _ hi => h i (by omega)
  have hflags : load32 m' (pos + 8) = load32 m (pos + 8) :=
    load32_congr fun i _ hi => h i (by omega)
  have hle := roundup_le (load16 m (pos + 12))
  have hle' := roundup_le (load16 m (pos + 14))
  have hsum : sysparamLen m pos =
      16 + roundup (load16 m (pos + 12)) 4 + roundup (load16 m (pos + 14)) 4 := rfl
  refine ⟨load32_congr fun i _ hi => h i (by omega), ?_, ?_⟩
  · rw [sysparamCrc32, sysparamCrc32, hlen]
    exact congrArg _ (window_congr fun i hi => h _ (by omega))
  · rw [sysparamReadPhys, sysparamReadPhys, hname, hdata, hflags,
      window_congr fun i hi => h (pos + 16 + i) (by omega),
      window_congr fun i hi => h (pos + 16 + roundup (load16 m (pos + 12)) 4 + i) (by omega)]

/-- **Where all positions are fit, the loop finds the records of the area.** -/
theorem scanLoop_chain {m₀ : ℕ → UInt8} (h₀ : ∀ i < len, m₀ i = m i) {turns pos : ℕ}
    (hturns : len ≤ pos + turns)
    (h : ∀ q, Relation.ReflTransGen (Next m offset len mallocOk) pos q → Meets m offset len q) :
    ∃ records, Chain m₀ len pos records ∧ (scanLoop m offset len mallocOk turns pos).1 <+: records ∧
      ((scanLoop m offset len mallocOk turns pos).2 = true →
        (scanLoop m offset len mallocOk turns pos).1 = records) := by
  induction turns generalizing pos with
  | zero => exact ⟨[], .finish (by omega), List.prefix_rfl, fun _ => rfl⟩
  | succ turns ih =>
    have h16 := sixteen_le_sysparamLen m pos
    rw [scanLoop]
    by_cases hlt : pos < len
    swap
    · rw [if_neg hlt]
      exact ⟨[], .finish (by omega), List.prefix_rfl, fun _ => rfl⟩
    obtain ⟨h4, hrec⟩ := h pos .refl hlt
    have hmagic₀ : load32 m₀ pos = load32 m pos := load32_congr fun i _ hi => h₀ i (by omega)
    rw [if_pos hlt]
    by_cases hmagic : load32 m pos = sysparamMagic
    swap
    · rw [if_pos hmagic]
      obtain ⟨records, hchain, hprefix, heq⟩ := ih (by omega) fun q hq =>
        h q (.head ⟨hlt, .inl ⟨hmagic, rfl⟩⟩ hq)
      exact ⟨records, .skip h4 (hmagic₀.trans_ne hmagic) hchain, hprefix, heq⟩
    obtain ⟨h16', hnear⟩ := hrec hmagic
    have hlen₀ := sysparamLen_congr h₀ h16'
    rw [if_neg (not_not.2 hmagic)]
    dsimp only
    by_cases hfar : offset + len < pos + sysparamLen m pos
    · rw [if_pos hfar]
      exact ⟨[], .beyond h4 (hmagic₀.trans hmagic) (by omega), List.prefix_rfl, fun _ => rfl⟩
    have hin := hnear (by omega)
    obtain ⟨hfield, hcrc₀, hread⟩ := record_congr h₀ hin
    have hnext : ∀ ok, ok = pos + sysparamLen m pos →
        (load32 m (pos + 4) = (sysparamCrc32 m pos).toNat → mallocOk pos = true) →
        Next m offset len mallocOk pos ok := fun ok hok hgo =>
      ⟨hlt, .inr ⟨hmagic, by omega, hgo, hok⟩⟩
    rw [if_neg hfar]
    by_cases hcrc : load32 m (pos + 4) = (sysparamCrc32 m pos).toNat
    swap
    · rw [if_pos hcrc]
      obtain ⟨records, hchain, hprefix, heq⟩ := ih (by omega) fun q hq =>
        h q (.head (hnext _ rfl fun hc => absurd hc hcrc) hq)
      refine ⟨records, .torn (hmagic₀.trans hmagic) (by omega) ?_ (hlen₀ ▸ hchain), hprefix, heq⟩
      rw [hfield, hcrc₀]
      exact hcrc
    have hcrc' : load32 m₀ (pos + 4) = (sysparamCrc32 m₀ pos).toNat := by rw [hfield, hcrc₀, hcrc]
    rw [if_neg (not_not.2 hcrc)]
    by_cases hok : mallocOk pos = false
    · rw [if_pos hok]
      obtain ⟨records, hchain⟩ := exists_chain m₀ len (pos + sysparamLen m₀ pos)
      exact ⟨_, .record (hmagic₀.trans hmagic) (by omega) hcrc' hchain, List.nil_prefix,
        fun h => absurd h Bool.false_ne_true⟩
    · rw [if_neg hok]
      obtain ⟨records, hchain, hprefix, heq⟩ := ih (by omega) fun q hq =>
        h q (.head (hnext _ rfl fun _ => by simpa using hok) hq)
      refine ⟨_, .record (hmagic₀.trans hmagic) (by omega) hcrc' (hlen₀ ▸ hchain), ?_,
        fun h => ?_⟩
      · rw [hread]
        exact List.cons_prefix_cons.2 ⟨rfl, hprefix⟩
      · rw [hread]
        exact congrArg _ (heq h)

end Loop

/-! ### A scan -/

/-- **A scan keeps its promise exactly where every position that the loop comes to is fit**: four
bytes are left to look for the magic, sixteen where it is found, and a record that ends before
`offset + len` ends in the area.  Where the area starts the device the last is always so. -/
theorem sysparamScan_scans_iff {g : Geometry} {lvl : ℕ} {s : State} {b offset len : ℕ}
    {e : ScanEnv} {r : State × Status} (h : sysparamScan g lvl s b offset len e = some r) :
    Scans s b offset len e r ↔ (e.Loads len → ∀ pos, Relation.ReflTransGen
        (Next (s.buffer b offset len e.heap) offset len e.mallocOk) 0 pos →
          Meets (s.buffer b offset len e.heap) offset len pos) := by
  have hreads : (∀ w ∈ scanReads (s.buffer b offset len e.heap) offset len e.mallocOk len 0,
      w.1 + w.2 ≤ len) ↔ _ := scanReads_inside_iff (by omega)
  constructor
  · exact fun hs hload => hreads.1 (hs.reads hload)
  intro hmeets
  refine ⟨fun hload => hreads.2 (hmeets hload),
    fun turns ht => scanLoop_turns (by omega) (by omega), ?_⟩
  obtain ⟨records₀, hchain₀⟩ := exists_chain (s.buffer b offset len fun _ => 0) len 0
  unfold sysparamScan at h
  split_ifs at h with hassert hbuf hread
  · cases h
    exact ⟨[], records₀, (List.append_nil _).symm, hchain₀, List.nil_prefix, fun h => nomatch h⟩
  · cases h
    exact ⟨[], records₀, (List.append_nil _).symm, hchain₀, List.nil_prefix, fun h => nomatch h⟩
  · rw [not_or, not_le, Bool.not_eq_false] at hread
    have hload : e.Loads len := ⟨by simpa using hbuf, hread⟩
    have h₀ : ∀ i < len, s.buffer b offset len (fun _ => 0) i = s.buffer b offset len e.heap i := by
      intro i hi
      rw [State.buffer, State.buffer, if_pos hi, if_pos hi]
    obtain ⟨records, hchain, hprefix, heq⟩ :=
      scanLoop_chain h₀ (by omega : len ≤ 0 + len) (hmeets hload)
    cases h
    refine ⟨_, records, rfl, hchain, hprefix, fun hok => heq ?_⟩
    simp only at hok
    split_ifs at hok with hflag
    exact hflag

/-- A device with a record from its eighth byte on. -/
def oneRecord : State := start fun _ i =>
  (List.replicate 8 0 ++ Param.encode ⟨0, nameA, [1]⟩).getD i 0

/-- The record is found, and the two words behind it are none. -/
theorem sysparamScan_scans_iff_oneRecord :
    ∃ r, sysparamScan smallDevice 2 oneRecord 0 8 32 goodScan = some r ∧
      r.1.list = [⟨0, nameA, [1]⟩] ∧ Scans oneRecord 0 8 32 goodScan r := by
  have hmap : (sysparamScan smallDevice 2 oneRecord 0 8 32 goodScan).map (fun r => r.1.list) =
      some [⟨0, nameA, [1]⟩] := by decide +kernel
  obtain ⟨r, hscan, hlist⟩ := Option.map_eq_some_iff.1 hmap
  refine ⟨r, hscan, hlist, (sysparamScan_scans_iff hscan).2 fun _ pos hpos => ?_⟩
  have hmagic : ∀ q, load32 (oneRecord.buffer 0 8 32 goodScan.heap) q = sysparamMagic →
      q = 24 ∨ q = 28 → False := by
    rintro q h (rfl | rfl)
    · exact absurd h (by decide +kernel)
    · exact absurd h (by decide +kernel)
  have h0 : load32 (oneRecord.buffer 0 8 32 goodScan.heap) 0 = sysparamMagic := by decide +kernel
  have hlen : sysparamLen (oneRecord.buffer 0 8 32 goodScan.heap) 0 = 24 := by decide +kernel
  have hreached : pos = 0 ∨ pos = 24 ∨ pos = 28 ∨ pos = 32 := by
    induction hpos with
    | refl => exact .inl rfl
    | tail _ hnext ih =>
      obtain ⟨hlt, ⟨hno, rfl⟩ | ⟨hm, -, -, rfl⟩⟩ := hnext
      · rcases ih with rfl | rfl | rfl | rfl
        · exact absurd h0 hno
        all_goals omega
      · rcases ih with rfl | h | h | rfl
        · exact .inr (.inl (by rw [hlen]))
        · exact (hmagic _ hm (.inl h)).elim
        · exact (hmagic _ hm (.inr h)).elim
        · omega
  intro hlt
  refine ⟨by omega, fun hm => ?_⟩
  rcases hreached with rfl | h | h | rfl
  · exact ⟨by decide, fun _ => by rw [hlen]; decide⟩
  · exact (hmagic _ hm (.inl h)).elim
  · exact (hmagic _ hm (.inr h)).elim
  · omega

/-- A device that holds twelve zeros and the magic. -/
def lastMagic : State := start fun _ i => ([0, 0, 0, 0, 0, 0, 0, 0, 0, 0, 0, 0] ++
  le 4 sysparamMagic).getD i 0

/-- In an area of sixteen bytes the header of its last word is read behind the buffer. -/
theorem lastMagic_not_scans : ¬ ∀ (g : Geometry) (lvl : ℕ) (s : State) (b offset len : ℕ)
    (e : ScanEnv) (r : State × Status), sysparamScan g lvl s b offset len e = some r →
      Scans s b offset len e r := by
  intro h
  have hscan : ∃ r, sysparamScan smallDevice 2 lastMagic 0 0 16 goodScan = some r := ⟨_, rfl⟩
  obtain ⟨r, hr⟩ := hscan
  have hload : goodScan.Loads 16 := ⟨rfl, rfl, by decide⟩
  have hmem : (24, 4) ∈ scanReads (lastMagic.buffer 0 0 16 goodScan.heap) 0 16
      goodScan.mallocOk 16 0 := by decide
  exact absurd ((h _ _ _ _ _ _ _ _ hr).reads hload _ hmem) (by decide)

end Sysparam
end LittleKernel
