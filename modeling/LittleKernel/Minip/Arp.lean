/-
# The ARP cache

`lib/minip/arp.c`: `mru_update`, `arp_cache_update` and `arp_cache_lookup`.  The cache is a
list with the entry used last in front; both functions move the entry they find there, and an
update of an address that is not cached adds an entry.

What the cache is for is a map from addresses to MAC addresses.  It is one as long as no host
changes its MAC address: for an address that is cached, `arp_cache_update` writes `arp->addr`,
which is the same already, and not `arp->mac` (`arp_cache_is_map_iff`).

Each call is one step under `arp_mutex`.
-/

import LittleKernel.Lib.Keyed
import LittleKernel.Lib.Machine
import Mathlib.Logic.Function.Basic

namespace LittleKernel
namespace Arp

open Machine Function

/-- A `uint8_t mac[6]`. -/
abbrev Mac := Fin 6 → UInt8

/-- An `arp_entry_t`. -/
structure ArpEntry where
  addr : UInt32
  mac : Mac

/-- The entries of `arp_list`, the first one in front. -/
abbrev Cache := List ArpEntry

/-- The entry that the loops over the list stop at. -/
def entryOf (l : Cache) (addr : UInt32) : Option ArpEntry := l.find? fun e => e.addr = addr

/-- `mru_update` of the entry `e`, the first one with its address. -/
def mruUpdate (l : Cache) (e : ArpEntry) : Cache :=
  if l.head?.map ArpEntry.addr = some e.addr then l
  else e :: l.eraseP fun x => x.addr = e.addr

/-- 0.0.0.0 and x.x.x.255, which are ignored. -/
def Refused (addr : UInt32) : Prop := addr = 0 ∨ addr >>> 24 = 0xFF

instance (addr : UInt32) : Decidable (Refused addr) := inferInstanceAs (Decidable (_ ∨ _))

/-- `arp_cache_update`; `alloc` is whether `malloc` finds room. -/
def arpCacheUpdate (l : Cache) (addr : UInt32) (mac : Mac) (alloc : Bool) : Cache :=
  if Refused addr then l
  else
    match entryOf l addr with
    -- the entry keeps its MAC address
    | some e => mruUpdate l e
    | none => if alloc then ⟨addr, mac⟩ :: l else l

/-- `arp_cache_lookup`: the MAC address, and the list. -/
def arpCacheLookup (l : Cache) (addr : UInt32) : Option Mac × Cache :=
  match entryOf l addr with
  | some e => (some e.mac, mruUpdate l e)
  | none => (none, l)

/-! ### What a call does -/

variable {l : Cache} {e : ArpEntry}

theorem entryOf_of_head (he : entryOf l e.addr = some e)
    (hh : l.head?.map ArpEntry.addr = some e.addr) : l.head? = some e := by
  cases l with
  | nil => cases hh
  | cons x l =>
    have hx : x.addr = e.addr := Option.some.inj hh
    rw [entryOf, List.find?_cons_of_pos (by simpa using hx)] at he
    exact he

/-- **The entry moves to the front**, and nothing else changes. -/
theorem mruUpdate_perm (he : entryOf l e.addr = some e) :
    (mruUpdate l e).Perm l := by
  rw [mruUpdate]
  split_ifs
  · exact .refl _
  · induction l with
    | nil => cases he
    | cons x l ih =>
      by_cases hx : x.addr = e.addr
      · rw [entryOf, List.find?_cons_of_pos (by simpa using hx)] at he
        cases he
        rw [List.eraseP_cons_of_pos (by simp)]
      · rw [entryOf, List.find?_cons_of_neg (by simpa using hx)] at he
        rw [List.eraseP_cons_of_neg (by simpa using hx)]
        by_cases hh : l.head?.map ArpEntry.addr = some e.addr
        · have hhead := entryOf_of_head he hh
          cases l with
          | nil => cases hh
          | cons y l =>
            cases hhead
            rw [List.eraseP_cons_of_pos (by simp)]
            exact .swap _ _ _
        · exact (List.Perm.swap _ _ _).trans ((ih he hh).cons x)

theorem entryOf_addr {addr : UInt32} (h : entryOf l addr = some e) :
    e.addr = addr := (Keyed.of_find h).2

/-- **An update caches the address,** unless it is refused or `malloc` fails. -/
theorem entryOf_arpCacheUpdate_isSome (l : Cache) (addr : UInt32) (mac : Mac) (alloc : Bool) :
    (entryOf (arpCacheUpdate l addr mac alloc) addr).isSome ↔
      (entryOf l addr).isSome ∨ ¬ Refused addr ∧ alloc := by
  unfold arpCacheUpdate
  by_cases hr : Refused addr
  · rw [if_pos hr]
    simp [hr]
  · rw [if_neg hr]
    cases he : entryOf l addr with
    | none =>
      cases alloc with
      | false => simp [he]
      | true => simp [hr, entryOf]
    | some e =>
      obtain rfl := entryOf_addr he
      have hmem : e ∈ mruUpdate l e := (mruUpdate_perm he).mem_iff.2 (Keyed.of_find he).1
      refine iff_of_true (List.find?_isSome.2 ⟨e, hmem, ?_⟩) (.inl rfl)
      simp

/-- At most one entry for each address. -/
def Unique (l : Cache) : Prop := (l.map ArpEntry.addr).Nodup

theorem Unique.mruUpdate (h : Unique l) (he : entryOf l e.addr = some e) :
    Unique (mruUpdate l e) ∧ ∀ a, entryOf (mruUpdate l e) a = entryOf l a :=
  ⟨((mruUpdate_perm he).map _).nodup_iff.2 h, fun _ => Keyed.find_perm h (mruUpdate_perm he)⟩

/-- **A lookup changes no answer.** -/
theorem Unique.arpCacheLookup (h : Unique l) (addr : UInt32) :
    (arpCacheLookup l addr).1 = (entryOf l addr).map ArpEntry.mac ∧
      Unique (arpCacheLookup l addr).2 ∧
        ∀ a, entryOf (arpCacheLookup l addr).2 a = entryOf l a := by
  unfold Arp.arpCacheLookup
  cases he : entryOf l addr with
  | none => exact ⟨rfl, h, fun _ => rfl⟩
  | some e =>
    obtain rfl := entryOf_addr he
    exact ⟨rfl, h.mruUpdate he⟩

/-- **What an update leaves:** a new entry where there was none, else what was there. -/
theorem Unique.arpCacheUpdate (h : Unique l) (addr : UInt32) (mac : Mac)
    (alloc : Bool) :
    Unique (arpCacheUpdate l addr mac alloc) ∧
      ∀ a, entryOf (arpCacheUpdate l addr mac alloc) a =
        if a = addr ∧ ¬ Refused addr ∧ entryOf l addr = none ∧ alloc then some ⟨addr, mac⟩
        else entryOf l a := by
  unfold Arp.arpCacheUpdate
  by_cases hr : Refused addr
  · simp only [if_pos hr]
    exact ⟨h, fun a => by rw [if_neg (by tauto)]⟩
  rw [if_neg hr]
  cases he : entryOf l addr with
  | some e =>
    obtain rfl := entryOf_addr he
    obtain ⟨hu, hall⟩ := h.mruUpdate he
    exact ⟨hu, fun a => (hall a).trans (if_neg fun h => by cases h.2.2.1).symm⟩
  | none =>
    cases alloc with
    | false => exact ⟨h, fun a => by simp⟩
    | true =>
      have hnew : ∀ x ∈ l, x.addr ≠ addr := Keyed.find_eq_none_iff.1 he
      refine ⟨?_, fun a => ?_⟩
      · refine List.nodup_cons.2 ⟨fun hmem => ?_, h⟩
        obtain ⟨x, hx, hxa⟩ := List.mem_map.1 hmem
        exact hnew x hx hxa
      · rw [if_pos rfl, entryOf]
        by_cases ha : a = addr
        · rw [if_pos ⟨ha, hr, rfl, rfl⟩, List.find?_cons_of_pos (by simp [ha])]
        · rw [if_neg (by tauto), List.find?_cons_of_neg (by simpa using Ne.symm ha)]
          rfl

/-! ## The map -/

/-- The cache, and the MAC address that the last accepted update of each address gave. -/
structure State where
  cache : Cache
  latest : UInt32 → Option Mac

/-- `arp_cache_init`. -/
def arpCacheInit : State := ⟨[], fun _ => none⟩

inductive Op where
  | update (addr : UInt32) (mac : Mac) (alloc : Bool)
  | lookup (addr : UInt32)

/-- An update that the function neither ignores nor gives up on. -/
def Accepts (l : Cache) (addr : UInt32) (alloc : Bool) : Prop :=
  ¬ Refused addr ∧ ((entryOf l addr).isSome ∨ alloc)

instance (l : Cache) (addr : UInt32) (alloc : Bool) : Decidable (Accepts l addr alloc) :=
  inferInstanceAs (Decidable (_ ∧ _))

def step (s : State) : Op → Option State
  | .update addr mac alloc => some
      { cache := arpCacheUpdate s.cache addr mac alloc
        latest := if Accepts s.cache addr alloc then update s.latest addr (some mac)
          else s.latest }
  | .lookup addr => some { s with cache := (arpCacheLookup s.cache addr).2 }

/-- **The cache is a map:** one entry an address, every lookup gives what the last accepted
update of the address gave, and changes no other lookup. -/
structure IsMap (s : State) : Prop where
  unique : Unique s.cache
  lookup : ∀ a, (arpCacheLookup s.cache a).1 = s.latest a
  quiet : ∀ a b, (arpCacheLookup (arpCacheLookup s.cache a).2 b).1 = (arpCacheLookup s.cache b).1

/-- An update that changes no cached MAC address. -/
def Op.Same (s : State) : Op → Prop
  | .update addr mac _ => ¬ Refused addr → ∀ e, entryOf s.cache addr = some e → e.mac = mac
  | .lookup _ => True

theorem isMap_iff {s : State} (h : Unique s.cache) :
    IsMap s ↔ ∀ a, (entryOf s.cache a).map ArpEntry.mac = s.latest a := by
  constructor
  · intro hm a
    rw [← hm.lookup a, (h.arpCacheLookup a).1]
  · intro hm
    refine ⟨h, fun a => by rw [(h.arpCacheLookup a).1, hm a], fun a b => ?_⟩
    obtain ⟨-, hu, hall⟩ := h.arpCacheLookup a
    rw [(hu.arpCacheLookup b).1, (h.arpCacheLookup b).1, hall b]

/-- A step from a map leads to a map when it changes no cached MAC address. -/
theorem IsMap.step {s s' : State} {op : Op} (hu : Unique s.cache) (hm : IsMap s)
    (h : step s op = some s') : Unique s'.cache ∧ (IsMap s' ↔ op.Same s) := by
  rw [isMap_iff hu] at hm
  cases op with
  | lookup addr =>
    cases h
    obtain ⟨-, hu', hall⟩ := hu.arpCacheLookup addr
    refine ⟨hu', ?_⟩
    rw [isMap_iff hu']
    exact iff_of_true (fun a => by rw [← hm a]; exact congrArg _ (hall a)) trivial
  | update addr mac alloc =>
    cases h
    obtain ⟨hu', hall⟩ := hu.arpCacheUpdate addr mac alloc
    refine ⟨hu', ?_⟩
    rw [isMap_iff hu']
    simp only [hall]
    by_cases hr : Refused addr
    · have hacc : ¬ Accepts s.cache addr alloc := fun h => h.1 hr
      refine iff_of_true (fun a => ?_) fun hn => absurd hr hn
      rw [if_neg (by tauto), if_neg hacc, hm a]
    cases he : entryOf s.cache addr with
    | some e =>
      have hacc : Accepts s.cache addr alloc := ⟨hr, .inl (by rw [he]; rfl)⟩
      constructor
      · intro hmap _ e' he'
        obtain rfl : e = e' := Option.some.inj (he.symm.trans he')
        have := hmap addr
        rw [if_neg (by simp), if_pos hacc, he, update_self] at this
        exact Option.some.inj this
      · intro hsame a
        rw [if_neg (by simp), if_pos hacc, hm a]
        by_cases ha : a = addr
        · rw [ha, update_self, ← hm addr, he, ← hsame hr e he]
          rfl
        · rw [update_of_ne ha]
    | none =>
      refine iff_of_true (fun a => ?_) fun _ e he' => by
        rw [he] at he'
        cases he'
      cases alloc with
      | false =>
        have hacc : ¬ Accepts s.cache addr false := fun h => by
          rcases h.2 with h | h
          · rw [he] at h
            cases h
          · cases h
        rw [if_neg (by simp), if_neg hacc, hm a]
      | true =>
        have hacc : Accepts s.cache addr true := ⟨hr, .inr rfl⟩
        rw [if_pos hacc]
        by_cases ha : a = addr
        · rw [if_pos ⟨ha, hr, rfl, rfl⟩, ha, update_self]
          rfl
        · rw [if_neg (by tauto), update_of_ne ha, hm a]

/-- **Which runs keep the cache a map.**  Over every sequence of updates and lookups, the cache
is a map in every state reached exactly when no accepted update gives a cached address another
MAC address. -/
theorem arp_cache_is_map_iff (ops : List Op) :
    Throughout step IsMap arpCacheInit ops ↔ Along step (fun s op => op.Same s) arpCacheInit ops := by
  have hu : Unique arpCacheInit.cache := List.nodup_nil
  have htotal : ∀ (s : State) (op : Op), ∃ s', step s op = some s' := by
    intro s op
    cases op with
    | update addr mac alloc => exact ⟨_, rfl⟩
    | lookup addr => exact ⟨_, rfl⟩
  obtain ⟨s, hs⟩ := run_total htotal ops arpCacheInit
  exact @throughout_iff_along _ _ _ _ (fun s => Unique s.cache) _ (fun s op s' hu hm h => hm.step hu h)
    ops _ s hu ((isMap_iff hu).2 fun _ => rfl) hs

/-- 10.0.0.2, whose host gets another network card: the cache keeps the old address. -/
theorem arp_cache_keeps_old_mac :
    ¬ Throughout step IsMap arpCacheInit
      [.update 0x0200000A (fun _ => 1) true, .update 0x0200000A (fun _ => 2) true] := by
  intro h
  have := (h.2 _ rfl).2 _ rfl
  exact absurd (congrFun (Option.some.inj (this.lookup 0x0200000A)) 0) (by decide)

end Arp
end LittleKernel
