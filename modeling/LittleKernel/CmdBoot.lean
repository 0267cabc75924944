/-
# The kernel command line

`platform/exynos9630/boot/cmd_boot.c`: `bootargs_init`, which parses the command line of
the device tree into a table of 64 items, `update_val`, `add_val` and `remove_val`, which
edit the table, and `bootargs_update`, which prints it.

An item has a key and a value of 128 bytes each, zeros to start with, and neither the
parser nor the edits look at their lengths.  Here every access that leaves its field, the
table or the buffer of 2048 bytes gives `none`.  `Rep` says which list of items a table
stands for.

The parser keeps `quiet=` as it keeps `quiet`, and the printer leaves out what has no key;
`update_val` compares only as many characters as the name has.  `bootargs_editing_iff` says
for which command lines and calls all is well.

Left out: the device tree around the string (`bootargs` is not initialised when there is
none), `get_bootargs_val`, and the consoles' prints.
-/

import LittleKernel.Lib.Bytes
import LittleKernel.Lib.Machine

namespace LittleKernel
namespace CmdBoot

open Bytes Machine

/-! ### Fields -/

/-- `char[BOOTARGS_ITEM_SIZE]`. -/
abbrev Field := Vector UInt8 128

namespace Field

/-- `f[i] = b`; `none` when that is outside of the field. -/
def put (f : Field) (i : ℕ) (b : UInt8) : Option Field :=
  if h : i < 128 then some (f.set i b) else none

/-- `strcpy` or `sprintf` of `s` with its NUL. -/
def puts (f : Field) (s : List UInt8) : Option Field :=
  if h : s.length < 128 then
    some ⟨(s ++ 0 :: f.toList.drop (s.length + 1)).toArray, by simp; omega⟩
  else none

/-- The C string in the field; `none` when it is not terminated there. -/
def str (f : Field) : Option (List UInt8) :=
  if 0 ∈ f.toList then some (f.toList.takeWhile (· ≠ 0)) else none

/-- The field is `l` and zeros. -/
def Holds (f : Field) (l : List UInt8) : Prop :=
  l.length ≤ 128 ∧ f.toList = l ++ List.replicate (128 - l.length) 0

theorem holds_zero : Holds (Vector.replicate 128 0) [] := by
  simp [Holds]

theorem holds_put {f : Field} {l : List UInt8} (h : f.Holds l) (hl : l.length < 128)
    (b : UInt8) : ∃ f', f.put l.length b = some f' ∧ Holds f' (l ++ [b]) := by
  obtain ⟨n, hn⟩ : ∃ n, 128 - l.length = n + 1 := ⟨127 - l.length, by omega⟩
  refine ⟨_, dif_pos hl, by simp; omega, ?_⟩
  rw [Vector.toList_set, h.2, hn, List.set_append_right _ _ (le_refl _), Nat.sub_self,
    List.replicate_succ, List.set_cons_zero, List.length_append, List.length_singleton,
    show 128 - (l.length + 1) = n by omega, List.append_assoc, List.singleton_append]

/-- A NUL behind the string changes nothing. -/
theorem holds_put_zero {f : Field} {l : List UInt8} {i : ℕ} (h : f.Holds l) (hl : l.length ≤ i)
    (hi : i < 128) : ∃ f', f.put i 0 = some f' ∧ Holds f' l := by
  refine ⟨_, dif_pos hi, h.1, ?_⟩
  rw [Vector.toList_set, h.2, List.set_append_right _ _ hl]
  congr 1
  exact List.set_replicate_self

/-- A string that leaves room for its NUL is read back. -/
theorem Holds.str {f : Field} {l : List UInt8} (h : f.Holds l) (hl : l.length < 128)
    (h0 : 0 ∉ l) : f.str = some l := by
  obtain ⟨n, hn⟩ : ∃ n, 128 - l.length = n + 1 := ⟨127 - l.length, by omega⟩
  have hall : ∀ b ∈ l, (decide (b ≠ 0)) = true := fun b hb => by
    simpa using fun he : b = 0 => h0 (he ▸ hb)
  rw [Field.str, h.2, hn, List.replicate_succ, if_pos (by simp),
    List.takeWhile_append_of_pos hall]
  simp

theorem str_puts {f f' : Field} {s : CString} (h : f.puts s.bytes = some f') :
    f'.str = some s.bytes := by
  rw [puts] at h
  split at h
  · cases h
    have := congrArg CString.bytes (CString.ofBytes_append s (f.toList.drop (s.bytes.length + 1)))
    rw [Field.str, if_pos (by simp)]
    exact congrArg some this
  · cases h

theorem puts_of_lt (f : Field) {s : List UInt8} (h : s.length < 128) :
    ∃ f', f.puts s = some f' := ⟨_, dif_pos h⟩

theorem length_lt_of_puts {f f' : Field} {s : List UInt8} (h : f.puts s = some f') :
    s.length < 128 := by
  rw [puts] at h
  split at h
  · assumption
  · cases h

/-- A string that is read back fits with its NUL. -/
theorem length_lt_of_str {f : Field} {l : List UInt8} (h : f.str = some l) : l.length < 128 := by
  rw [Field.str] at h
  split at h
  · rename_i h0
    cases h
    by_contra hlt
    have hlen : f.toList.length = 128 := f.size_toArray
    have hle := (List.takeWhile_prefix (· ≠ (0 : UInt8)) (l := f.toList)).length_le
    have hall : f.toList.takeWhile (· ≠ 0) = f.toList :=
      (List.takeWhile_prefix _).eq_of_length (by omega)
    simpa using List.takeWhile_eq_self_iff.mp hall 0 h0
  · cases h

end Field

/-! ### The table -/

/-- `struct bootargs_prop`. -/
structure BootargsProp where
  prop : Field
  val : Field

/-- `prop` and `prop_cnt`. -/
structure Table where
  prop : Vector BootargsProp 64
  propCnt : ℕ

/-- The table of the program as it is loaded. -/
def Table.zero : Table where
  prop := Vector.replicate 64 ⟨Vector.replicate 128 0, Vector.replicate 128 0⟩
  propCnt := 0

/-- Entry `i` changed by `g`. -/
def Table.modify (t : Table) (i : ℕ) (g : BootargsProp → Option BootargsProp) : Option Table :=
  if h : i < 64 then (g t.prop[i]).map fun e => { t with prop := t.prop.set i e } else none

/-- `prop[i].prop[cur] = b`. -/
def Table.putProp (t : Table) (i cur : ℕ) (b : UInt8) : Option Table :=
  t.modify i fun e => (e.prop.put cur b).map fun f => { e with prop := f }

/-- `prop[i].val[cur] = b`. -/
def Table.putVal (t : Table) (i cur : ℕ) (b : UInt8) : Option Table :=
  t.modify i fun e => (e.val.put cur b).map fun f => { e with val := f }

/-- What a change of one entry does. -/
theorem Table.modify_of_eq {t : Table} {i : ℕ} {g : BootargsProp → Option BootargsProp}
    {e e' : BootargsProp} (he : t.prop[i]? = some e) (hg : g e = some e') :
    ∃ t', t.modify i g = some t' ∧ t'.propCnt = t.propCnt ∧ t'.prop[i]? = some e' ∧
      ∀ j, j ≠ i → t'.prop[j]? = t.prop[j]? := by
  obtain ⟨h, rfl⟩ := Vector.getElem?_eq_some_iff.mp he
  refine ⟨{ t with prop := t.prop.set i e' }, ?_, rfl, ?_, ?_⟩
  · rw [Table.modify, dif_pos h, hg]
    rfl
  · simp [Vector.getElem?_set_self h]
  · intro j hj
    simp [Vector.getElem?_set_ne h (Ne.symm hj)]

theorem Table.of_modify {t t' : Table} {i : ℕ} {g : BootargsProp → Option BootargsProp}
    (h : t.modify i g = some t') : ∃ e e', t.prop[i]? = some e ∧ g e = some e' ∧
      t'.propCnt = t.propCnt ∧ t'.prop[i]? = some e' ∧ ∀ j, j ≠ i → t'.prop[j]? = t.prop[j]? := by
  rw [Table.modify] at h
  split at h
  · rename_i hi
    obtain ⟨e', hg, rfl⟩ := Option.map_eq_some_iff.mp h
    refine ⟨t.prop[i], e', Vector.getElem?_eq_getElem hi, hg, rfl, ?_, ?_⟩
    · simp [Vector.getElem?_set_self hi]
    · intro j hj
      simp [Vector.getElem?_set_ne hi (Ne.symm hj)]
  · cases h

/-- An item of a command line. -/
structure Item where
  key : List UInt8
  val : List UInt8
deriving DecidableEq

/-- Entry `i` of the table is the item. -/
def IsItem (t : Table) (i : ℕ) (it : Item) : Prop :=
  ∃ e, t.prop[i]? = some e ∧ e.prop.str = some it.key ∧ e.val.str = some it.val

/-- The table stands for the items. -/
structure Rep (t : Table) (l : List Item) : Prop where
  count : t.propCnt + 1 = l.length
  items : ∀ i it, l[i]? = some it → IsItem t i it

variable {t t' : Table} {l : List Item} {i : ℕ} {it it' : Item}

theorem IsItem.lt (h : IsItem t i it) : i < 64 := by
  obtain ⟨e, he, _⟩ := h
  exact (Vector.getElem?_eq_some_iff.mp he).1

theorem IsItem.unique {a b : Item} (ha : IsItem t i a) (hb : IsItem t i b) : a = b := by
  obtain ⟨e, he, hk, hv⟩ := ha
  obtain ⟨e', he', hk', hv'⟩ := hb
  rw [he] at he'
  cases he'
  rw [hk] at hk'
  rw [hv] at hv'
  obtain ⟨k, v⟩ := a
  cases hk'
  cases hv'
  rfl

theorem IsItem.length_lt (h : IsItem t i it) : it.key.length < 128 ∧ it.val.length < 128 := by
  obtain ⟨e, _, hk, hv⟩ := h
  exact ⟨Field.length_lt_of_str hk, Field.length_lt_of_str hv⟩

theorem IsItem.congr (h : IsItem t i it) (he : t'.prop[i]? = t.prop[i]?) : IsItem t' i it := by
  obtain ⟨e, h⟩ := h
  exact ⟨e, by rw [he]; exact h.1, h.2⟩

theorem Rep.unique {l m : List Item} (hl : Rep t l) (hm : Rep t m) : l = m := by
  have hlen : l.length = m.length := by rw [← hl.count, hm.count]
  refine List.ext_getElem hlen fun i h₁ h₂ => ?_
  exact (hl.items i _ (List.getElem?_eq_getElem h₁)).unique
    (hm.items i _ (List.getElem?_eq_getElem h₂))

theorem Rep.length_le (h : Rep t l) : l.length ≤ 64 := by
  have hcount := h.count
  have := (h.items (l.length - 1) l[l.length - 1] (List.getElem?_eq_getElem (by omega))).lt
  omega

/-! ### Parsing -/

/-- `' '`. -/
def space : UInt8 := 0x20

/-- `'='`. -/
def equals : UInt8 := 0x3d

/-- The local variables of `bootargs_init`. -/
structure Parser where
  table : Table
  cur : ℕ
  cnt : ℕ
  isVal : Bool

/-- One turn of the loop of `bootargs_init`. -/
def parseChar (p : Parser) (c : UInt8) : Option Parser :=
  if c = equals then
    if 0 < p.cnt then do
      let t ← p.table.putVal p.table.propCnt p.cur c
      return { p with table := t, cur := p.cur + 1, isVal := true }
    else do
      let t ← p.table.putProp p.table.propCnt p.cur 0
      return { table := t, cur := 0, cnt := p.cnt + 1, isVal := true }
  else if c = space then do
    let t ← p.table.putVal p.table.propCnt p.cur 0
    return { table := { t with propCnt := t.propCnt + 1 }, cur := 0, cnt := 0, isVal := false }
  else if p.isVal then do
    let t ← p.table.putVal p.table.propCnt p.cur c
    return { p with table := t, cur := p.cur + 1 }
  else do
    let t ← p.table.putProp p.table.propCnt p.cur c
    return { p with table := t, cur := p.cur + 1 }

/-- `bootargs_init` on the string of the device tree, which it copies with its NUL into
`BUFFER_SIZE` bytes. -/
def bootargsInit (s : CString) : Option Table :=
  if s.bytes.length + 1 ≤ 2048 then
    (s.bytes.foldlM parseChar ⟨Table.zero, 0, 0, false⟩).map (·.table)
  else none

/-- The item that the parser makes of a word: the key ends at the first `=`. -/
def splitItem (w : List UInt8) : Item :=
  ⟨w.takeWhile (· ≠ equals), (w.dropWhile (· ≠ equals)).tail⟩

/-- The items of a command line. -/
def items (s : List UInt8) : List Item := (s.splitOn space).map splitItem

theorem splitItem_of_not_mem {w : List UInt8} (h : equals ∉ w) : splitItem w = ⟨w, []⟩ := by
  have hall : ∀ b ∈ w, (decide (b ≠ equals)) = true := fun b hb => by
    simpa using fun he : b = equals => h (he ▸ hb)
  rw [splitItem, List.takeWhile_eq_self_iff.mpr hall, List.dropWhile_eq_nil_iff.mpr hall]
  rfl

theorem splitItem_append {k : List UInt8} (h : equals ∉ k) (v : List UInt8) :
    splitItem (k ++ equals :: v) = ⟨k, v⟩ := by
  have hall : ∀ b ∈ k, (decide (b ≠ equals)) = true := fun b hb => by
    simpa using fun he : b = equals => h (he ▸ hb)
  rw [splitItem, List.takeWhile_append_of_pos hall, List.dropWhile_append_of_pos hall]
  simp

/-- A longer word has no shorter key or value. -/
theorem splitItem_length_le (w u : List UInt8) :
    (splitItem w).key.length ≤ (splitItem (w ++ u)).key.length ∧
      (splitItem w).val.length ≤ (splitItem (w ++ u)).val.length := by
  by_cases h : equals ∈ w
  · obtain ⟨k, v, rfl, hk⟩ := List.eq_append_cons_of_mem h
    rw [List.append_assoc, List.cons_append, splitItem_append hk, splitItem_append hk]
    simp
  · rw [splitItem_of_not_mem h]
    refine ⟨?_, Nat.zero_le _⟩
    have hall : ∀ b ∈ w, (decide (b ≠ equals)) = true := fun b hb => by
      simpa using fun he : b = equals => h (he ▸ hb)
    rw [splitItem, List.takeWhile_append_of_pos hall]
    simp

/-- The table while an item is parsed: the items before it are done, its own fields hold
what has been read of it, and all others are zeros. -/
structure Filled (t : Table) (done : List Item) (k v : List UInt8) : Prop where
  count : t.propCnt = done.length
  before : ∀ i it, done[i]? = some it → IsItem t i it
  here : ∃ e, t.prop[done.length]? = some e ∧ e.prop.Holds k ∧ e.val.Holds v
  later : ∀ i e, done.length < i → t.prop[i]? = some e → e.prop.Holds [] ∧ e.val.Holds []

namespace Filled

variable {t : Table} {done : List Item} {k v : List UInt8}

theorem zero : Filled Table.zero [] [] [] where
  count := rfl
  before i it h := by simp at h
  here := ⟨⟨Vector.replicate 128 0, Vector.replicate 128 0⟩, by simp [Table.zero],
    Field.holds_zero, Field.holds_zero⟩
  later i e _ h := by
    obtain ⟨hi, rfl⟩ := Vector.getElem?_eq_some_iff.mp h
    simp [Table.zero, Field.holds_zero]

variable (h : Filled t done k v)
include h

/-- Writing to the item that is parsed. -/
theorem modify {g : BootargsProp → Option BootargsProp}
    {k' v' : List UInt8} (hg : ∀ e : BootargsProp, e.prop.Holds k → e.val.Holds v →
      ∃ e', g e = some e' ∧ e'.prop.Holds k' ∧ e'.val.Holds v') :
    ∃ t', t.modify t.propCnt g = some t' ∧ Filled t' done k' v' := by
  obtain ⟨e, he, hk, hv⟩ := h.here
  obtain ⟨e', hge, hk', hv'⟩ := hg e hk hv
  rw [← h.count] at he
  obtain ⟨t', ht, hcnt, hself, hother⟩ := Table.modify_of_eq he hge
  refine ⟨t', ht, hcnt.trans h.count, fun i it hi => ?_, ⟨e', h.count ▸ hself, hk', hv'⟩, ?_⟩
  · have hlt : i < done.length := (List.getElem?_eq_some_iff.mp hi).1
    exact (h.before i it hi).congr (hother i (by have := h.count; omega))
  · intro i e₁ hi he₁
    rw [hother i (by have := h.count; omega)] at he₁
    exact h.later i e₁ hi he₁

theorem putVal (hv : v.length < 128) (b : UInt8) :
    ∃ t', t.putVal t.propCnt v.length b = some t' ∧ Filled t' done k (v ++ [b]) := by
  refine h.modify fun e he hev => ?_
  obtain ⟨f, hf, hf'⟩ := Field.holds_put hev hv b
  exact ⟨{ e with val := f }, by rw [hf]; rfl, he, hf'⟩

theorem putProp (hk : k.length < 128) (b : UInt8) :
    ∃ t', t.putProp t.propCnt k.length b = some t' ∧ Filled t' done (k ++ [b]) v := by
  refine h.modify fun e he hev => ?_
  obtain ⟨f, hf, hf'⟩ := Field.holds_put he hk b
  exact ⟨{ e with prop := f }, by rw [hf]; rfl, hf', hev⟩

theorem putVal_zero (hi : v.length ≤ i) (hi' : i < 128) :
    ∃ t', t.putVal t.propCnt i 0 = some t' ∧ Filled t' done k v := by
  refine h.modify fun e he hev => ?_
  obtain ⟨f, hf, hf'⟩ := Field.holds_put_zero hev hi hi'
  exact ⟨{ e with val := f }, by rw [hf]; rfl, he, hf'⟩

theorem putProp_zero (hi : k.length ≤ i) (hi' : i < 128) :
    ∃ t', t.putProp t.propCnt i 0 = some t' ∧ Filled t' done k v := by
  refine h.modify fun e he hev => ?_
  obtain ⟨f, hf, hf'⟩ := Field.holds_put_zero he hi hi'
  exact ⟨{ e with prop := f }, by rw [hf]; rfl, hf', hev⟩

/-- The item that is parsed, when it is terminated in its fields. -/
theorem isItem (hk : k.length < 128) (hv : v.length < 128)
    (hk0 : 0 ∉ k) (hv0 : 0 ∉ v) : IsItem t done.length ⟨k, v⟩ := by
  obtain ⟨e, he, hek, hev⟩ := h.here
  exact ⟨e, he, hek.str hk hk0, hev.str hv hv0⟩

theorem isItem_concat (hk : k.length < 128) (hv : v.length < 128) (hk0 : 0 ∉ k) (hv0 : 0 ∉ v)
    (hi : (done ++ [⟨k, v⟩])[i]? = some it) : IsItem t i it := by
  rcases lt_or_ge i done.length with hlt | hge
  · rw [List.getElem?_append_left hlt] at hi
    exact h.before i it hi
  · have hlt := (List.getElem?_eq_some_iff.mp hi).1
    have hi' : i = done.length := by simp at hlt; omega
    subst hi'
    simp only [List.getElem?_concat_length, Option.some.injEq] at hi
    exact hi ▸ h.isItem hk hv hk0 hv0

theorem next (hk : k.length < 128) (hv : v.length < 128)
    (hk0 : 0 ∉ k) (hv0 : 0 ∉ v) (hlt : done.length + 1 < 64) :
    Filled { t with propCnt := t.propCnt + 1 } (done ++ [⟨k, v⟩]) [] [] where
  count := by simp [h.count]
  before i it hi := h.isItem_concat hk hv hk0 hv0 hi
  here := by
    have he := @Vector.getElem?_eq_getElem _ _ t.prop _ hlt
    exact ⟨_, by simp, h.later _ _ (Nat.lt_succ_self _) he⟩
  later i e hi he := h.later i e (by simp at hi; omega) he

theorem rep (hk : k.length < 128) (hv : v.length < 128)
    (hk0 : 0 ∉ k) (hv0 : 0 ∉ v) : Rep t (done ++ [⟨k, v⟩]) where
  count := by simp [h.count]
  items i it hi := h.isItem_concat hk hv hk0 hv0 hi

end Filled

/-- The parser has read the word `w` of the item behind `done`. -/
structure At (p : Parser) (done : List Item) (w : List UInt8) : Prop where
  filled : Filled p.table done (splitItem w).key (splitItem w).val
  isVal : p.isVal = decide (equals ∈ w)
  cnt : p.cnt = if equals ∈ w then 1 else 0
  cur : p.cur = if equals ∈ w then (splitItem w).val.length else (splitItem w).key.length

/-- A character that is no space goes into the key or the value of the word. -/
theorem At.char {p : Parser} {done : List Item} {w : List UInt8} {c : UInt8} (h : At p done w)
    (hc : c ≠ space) (hk : (splitItem (w ++ [c])).key.length < 128)
    (hv : (splitItem (w ++ [c])).val.length < 128) :
    ∃ p', parseChar p c = some p' ∧ At p' done (w ++ [c]) := by
  obtain ⟨table, cur, cnt, isVal⟩ := p
  obtain ⟨hf, rfl, rfl, rfl⟩ := h
  simp only at hf
  by_cases hw : equals ∈ w
  · -- the value grows, by an `=` like by anything else
    obtain ⟨k, v, rfl, hk'⟩ := List.eq_append_cons_of_mem hw
    simp only [List.append_assoc, List.cons_append, splitItem_append hk'] at hf hk hv ⊢
    obtain ⟨t', ht, hf'⟩ := hf.putVal (by simp at hv; omega) c
    refine ⟨⟨t', v.length + 1, 1, true⟩, ?_, ?_⟩
    · simp only [parseChar, hw, if_true, decide_true, Nat.zero_lt_one, ht, hc, if_false,
        Option.bind_eq_bind, Option.bind_some, Option.pure_def]
      split <;> rfl
    · exact ⟨by rw [splitItem_append hk']; exact hf', by simp, by simp,
        by simp [splitItem_append hk']⟩
  · simp only [splitItem_of_not_mem hw] at hf ⊢
    by_cases he : c = equals
    · -- the key ends
      subst he
      rw [splitItem_append hw] at hk
      obtain ⟨t', ht, hf'⟩ := hf.putProp_zero (le_refl _) hk
      refine ⟨⟨t', 0, 1, true⟩, ?_, ?_⟩
      · simp [parseChar, hw, ht]
      · exact ⟨by rw [splitItem_append hw]; exact hf', by simp, by simp,
          by simp [splitItem_append hw]⟩
    · have hw' : equals ∉ w ++ [c] := by simp [hw, Ne.symm he]
      rw [splitItem_of_not_mem hw'] at hk
      obtain ⟨t', ht, hf'⟩ := hf.putProp (by simp at hk; omega) c
      refine ⟨⟨t', w.length + 1, 0, false⟩, ?_, ?_⟩
      · simp [parseChar, hw, he, hc, ht]
      · exact ⟨by rw [splitItem_of_not_mem hw']; exact hf', by simp [hw'], by simp [hw'],
          by simp [hw', splitItem_of_not_mem hw']⟩

theorem not_mem_splitItem {w : List UInt8} (h : 0 ∉ w) :
    0 ∉ (splitItem w).key ∧ 0 ∉ (splitItem w).val := by
  refine ⟨fun hk => h ((List.takeWhile_prefix _).subset hk), fun hv => h ?_⟩
  exact (List.dropWhile_suffix _).subset (List.mem_of_mem_tail hv)

theorem At.space {p : Parser} {done : List Item} {w : List UInt8} (h : At p done w)
    (hk : (splitItem w).key.length < 128) (hv : (splitItem w).val.length < 128) (h0 : 0 ∉ w)
    (hlt : done.length + 1 < 64) :
    ∃ p', parseChar p CmdBoot.space = some p' ∧ At p' (done ++ [splitItem w]) [] := by
  obtain ⟨table, cur, cnt, isVal⟩ := p
  obtain ⟨hf, rfl, rfl, rfl⟩ := h
  simp only at hf
  obtain ⟨hk0, hv0⟩ := not_mem_splitItem h0
  obtain ⟨i, hi, hi', hcur⟩ : ∃ i, (splitItem w).val.length ≤ i ∧ i < 128 ∧
      i = if equals ∈ w then (splitItem w).val.length else (splitItem w).key.length := by
    by_cases hw : equals ∈ w
    · exact ⟨_, le_refl _, hv, by simp [hw]⟩
    · refine ⟨(splitItem w).key.length, ?_, hk, by simp [hw]⟩
      rw [splitItem_of_not_mem hw]
      exact Nat.zero_le _
  obtain ⟨t', ht, hf'⟩ := hf.putVal_zero hi hi'
  refine ⟨⟨{ t' with propCnt := t'.propCnt + 1 }, 0, 0, false⟩, ?_, ?_⟩
  · have hne : CmdBoot.space ≠ equals := by decide
    simp only [parseChar, hne, if_false, if_true, ← hcur, ht, Option.bind_eq_bind,
      Option.bind_some, Option.pure_def]
  · exact ⟨hf'.next hk hv hk0 hv0 hlt, by simp, by simp, by simp [splitItem]⟩

/-- The first word goes on from what has been read of it. -/
theorem splitOnPPrepend_eq_cons (q : UInt8 → Bool) (cs acc : List UInt8) :
    ∃ u rest, List.splitOnPPrepend q cs acc = (acc.reverse ++ u) :: rest := by
  induction cs generalizing acc with
  | nil => exact ⟨[], [], by simp⟩
  | cons c cs ih =>
    by_cases hc : q c
    · exact ⟨[], _, by rw [List.splitOnPPrepend_cons_pos hc, List.append_nil]⟩
    · obtain ⟨u, rest, h⟩ := ih (c :: acc)
      refine ⟨c :: u, rest, ?_⟩
      rw [List.splitOnPPrepend_cons_neg (by simpa using hc), h]
      simp

/-- **The parser.** From the middle of a word to the end of the line. -/
theorem At.foldlM {cs : List UInt8} {p : Parser} {done : List Item} {w : List UInt8}
    (h : At p done w)
    (hfit : ∀ it ∈ (List.splitOnPPrepend (· == CmdBoot.space) cs w.reverse).map splitItem,
      it.key.length < 128 ∧ it.val.length < 128)
    (hlen : done.length + (List.splitOnPPrepend (· == CmdBoot.space) cs w.reverse).length ≤ 64)
    (hw0 : 0 ∉ w) (hcs0 : 0 ∉ cs) :
    ∃ p', cs.foldlM parseChar p = some p' ∧ Rep p'.table
      (done ++ (List.splitOnPPrepend (· == CmdBoot.space) cs w.reverse).map splitItem) := by
  induction cs generalizing p done w with
  | nil =>
    obtain ⟨hk, hv⟩ := hfit (splitItem w) (by simp)
    obtain ⟨hk0, hv0⟩ := not_mem_splitItem hw0
    exact ⟨p, rfl, by simpa using h.filled.rep hk hv hk0 hv0⟩
  | cons c cs ih =>
    obtain ⟨hc0, hrest0⟩ : 0 ≠ c ∧ 0 ∉ cs := by simpa using hcs0
    by_cases hc : c = CmdBoot.space
    · subst hc
      have hsplit := @List.splitOnPPrepend_cons_pos _ (· == CmdBoot.space)
        CmdBoot.space cs w.reverse (by simp)
      rw [List.reverse_reverse] at hsplit
      rw [hsplit] at hfit hlen ⊢
      obtain ⟨u, rest, hne⟩ := splitOnPPrepend_eq_cons (· == CmdBoot.space) cs []
      rw [List.splitOnPPrepend_nil_right] at hne
      obtain ⟨hk, hv⟩ := hfit (splitItem w) (by simp)
      have hlt : done.length + 1 < 64 := by
        rw [hne] at hlen
        simp at hlen
        omega
      obtain ⟨p', hp, hat⟩ := h.space hk hv hw0 hlt
      obtain ⟨p'', hp', hrep⟩ := ih hat (fun it hit => hfit it (List.mem_cons_of_mem _ hit))
        (by simp at hlen ⊢; omega) (by simp) hrest0
      refine ⟨p'', by simp [hp, hp'], by simpa using hrep⟩
    · have hsplit := @List.splitOnPPrepend_cons_neg _ (· == CmdBoot.space)
        c cs w.reverse (by simpa using hc)
      rw [show c :: w.reverse = (w ++ [c]).reverse by simp] at hsplit
      rw [hsplit] at hfit hlen ⊢
      obtain ⟨u, rest, hhead⟩ := splitOnPPrepend_eq_cons (· == CmdBoot.space) cs (w ++ [c]).reverse
      obtain ⟨hk, hv⟩ := hfit (splitItem (w ++ [c] ++ u)) (by rw [hhead]; simp)
      obtain ⟨hk', hv'⟩ := splitItem_length_le (w ++ [c]) u
      obtain ⟨p', hp, hat⟩ := h.char hc (by omega) (by omega)
      obtain ⟨p'', hp', hrep⟩ := ih hat hfit hlen (by simp [hw0, hc0]) hrest0
      exact ⟨p'', by simp [hp, hp'], hrep⟩

/-- What the parser has room for: the string, the items, and each key and value with
its NUL. -/
def InitOk (s : CString) : Prop :=
  s.bytes.length < 2048 ∧ (items s.bytes).length ≤ 64 ∧
    ∀ it ∈ items s.bytes, it.key.length < 128 ∧ it.val.length < 128

instance (s : CString) : Decidable (InitOk s) := by
  unfold InitOk; infer_instance

/-- **Parsing.** The table stands for the items of the line, no write having left its field,
if and only if there is room for them. -/
theorem bootargsInit_rep_iff (s : CString) :
    (∃ t, bootargsInit s = some t ∧ Rep t (items s.bytes)) ↔ InitOk s := by
  constructor
  · rintro ⟨t, ht, hrep⟩
    refine ⟨?_, hrep.length_le, fun it hit => ?_⟩
    · rw [bootargsInit] at ht
      split at ht
      · omega
      · cases ht
    · obtain ⟨i, hi⟩ := List.mem_iff_getElem?.mp hit
      exact (hrep.items i it hi).length_lt
  · rintro ⟨hlen, hcount, hfit⟩
    have hat : At ⟨Table.zero, 0, 0, false⟩ [] [] :=
      ⟨Filled.zero, by simp, by simp, by simp [splitItem]⟩
    have hcount' : (List.splitOnPPrepend (· == space) s.bytes []).length ≤ 64 := by
      simpa [items, List.splitOn] using hcount
    obtain ⟨p, hp, hrep⟩ := @At.foldlM s.bytes _ _ _ hat hfit (by simpa using hcount') (by simp)
      s.nonul
    exact ⟨p.table, by rw [bootargsInit, if_pos (by omega), hp]; rfl, hrep⟩

/-! ### Printing -/

/-- `sprintf` of an item at the end of what has been printed, and a blank behind it;
`none` when a NUL gets behind the buffer. -/
def emit (out text : List UInt8) : Option (List UInt8) :=
  if out.length + text.length + 1 < 2048 then some (out ++ text ++ [space]) else none

/-- The loop of `bootargs_update` from item `i` on, with `n` items to go. -/
def printFrom (t : Table) : ℕ → ℕ → List UInt8 → Option (List UInt8)
  | _, 0, out => some out
  | i, n + 1, out => do
    let e ← t.prop[i]?
    let p ← e.prop.str
    let v ← e.val.str
    if p = [] ∧ v = [] then printFrom t (i + 1) n out
    else if v = [] then do
      let out ← emit out p
      printFrom t (i + 1) n out
    else if p ≠ [] then do
      let out ← emit out (p ++ equals :: v)
      printFrom t (i + 1) n out
    else printFrom t (i + 1) n out

/-- `bootargs_update`: the string that it puts into the device tree. -/
def bootargsUpdate (t : Table) : Option (List UInt8) := printFrom t 0 (t.propCnt + 1) []

/-- What is printed of an item. -/
def Item.text (it : Item) : Option (List UInt8) :=
  if it.val = [] then (if it.key = [] then none else some it.key)
  else if it.key = [] then none
  else some (it.key ++ equals :: it.val)

/-- What is printed of a list of items. -/
def printed (l : List Item) : List UInt8 := (l.filterMap Item.text).flatMap (· ++ [space])

/-- The loop prints the items in order, if they fit into the 2048 bytes of the line. -/
theorem printFrom_eq {out : List UInt8}
    (h : ∀ j it, l[j]? = some it → IsItem t (i + j) it) (hout : out.length < 2048) :
    printFrom t i l.length out =
      if (out ++ printed l).length < 2048 then some (out ++ printed l) else none := by
  induction l generalizing i out with
  | nil => simp [printFrom, printed, hout]
  | cons it l ih =>
    obtain ⟨e, he, hk, hv⟩ := h 0 it (by simp)
    have hrest : ∀ j it', l[j]? = some it' → IsItem t (i + 1 + j) it' := fun j it' hj => by
      have := h (j + 1) it' (by simpa using hj)
      rwa [show i + (j + 1) = i + 1 + j by omega] at this
    have hstep : printFrom t i (it :: l).length out =
        it.text.elim (printFrom t (i + 1) l.length out)
          fun text => (emit out text).bind fun out => printFrom t (i + 1) l.length out := by
      rw [Nat.add_zero] at he
      rw [List.length_cons, printFrom]
      simp only [he, hk, hv, Option.bind_eq_bind, Option.bind_some, Item.text]
      by_cases hv0 : it.val = [] <;> by_cases hk0 : it.key = [] <;> simp [hv0, hk0]
    rw [hstep]
    cases htext : it.text with
    | none =>
      have hp : printed (it :: l) = printed l := by simp [printed, htext]
      rw [hp, Option.elim_none, ih hrest hout]
    | some text =>
      have hp : printed (it :: l) = text ++ [space] ++ printed l := by simp [printed, htext]
      rw [hp, Option.elim_some]
      simp only [emit]
      split
      · rename_i hlt
        have hlt' : (out ++ text ++ [space]).length < 2048 := by simp; omega
        rw [Option.bind_some, ih hrest hlt']
        simp only [List.append_assoc]
      · rw [Option.bind_none, if_neg]
        simp
        omega

/-- **Printing.** What is printed of a table, as long as it fits into the buffer. -/
theorem bootargsUpdate_eq (h : Rep t l) :
    bootargsUpdate t = if (printed l).length < 2048 then some (printed l) else none := by
  rw [bootargsUpdate, h.count, printFrom_eq (fun j it hj => by simpa using h.items j it hj)
    (by simp)]
  simp

/-! ### What is parsed and printed again -/

/-- The words of a line: what stands between blanks. -/
def words (l : List UInt8) : List (List UInt8) := (l.splitOn space).filter (· ≠ [])

/-- The word has a key, and a value if it has an `=`. -/
def GoodWord (w : List UInt8) : Prop :=
  (splitItem w).key ≠ [] ∧ (equals ∈ w → (splitItem w).val ≠ [])

instance (w : List UInt8) : Decidable (GoodWord w) := by
  unfold GoodWord; infer_instance

/-- What is printed of a word: the word if it is good, and something shorter or nothing
otherwise. -/
theorem text_splitItem {w : List UInt8} (hw : w ≠ []) :
    (GoodWord w ∧ (splitItem w).text = some w) ∨
      (¬ GoodWord w ∧ ∀ u ∈ (splitItem w).text, u.length < w.length) := by
  by_cases h : equals ∈ w
  · obtain ⟨k, v, rfl, hk⟩ := List.eq_append_cons_of_mem h
    simp only [GoodWord, splitItem_append hk, Item.text]
    by_cases hv0 : v = [] <;> by_cases hk0 : k = [] <;> simp [hv0, hk0]
  · refine .inl ⟨⟨?_, fun he => absurd he h⟩, ?_⟩ <;> rw [splitItem_of_not_mem h]
    · exact hw
    · simp [Item.text, hw]

/-- No word that is printed has a blank or is empty. -/
theorem mem_text {w u : List UInt8} (hw : space ∉ w) (hu : u ∈ (splitItem w).text) :
    u ≠ [] ∧ space ∉ u := by
  by_cases h : equals ∈ w
  · obtain ⟨k, v, rfl, hk⟩ := List.eq_append_cons_of_mem h
    simp only [splitItem_append hk, Item.text] at hu
    have hsp : space ∉ k ∧ space ∉ v := by
      simp only [List.mem_append, List.mem_cons, not_or] at hw
      exact ⟨hw.1, hw.2.2⟩
    have hne : space ≠ equals := by decide
    by_cases hv0 : v = [] <;> by_cases hk0 : k = [] <;> simp [hv0, hk0] at hu
    · exact hu ▸ ⟨hk0, hsp.1⟩
    · exact hu ▸ ⟨by simp, by simp [hsp.1, hsp.2, hne]⟩
  · rw [splitItem_of_not_mem h] at hu
    by_cases h0 : w = [] <;> simp [Item.text, h0] at hu
    exact hu ▸ ⟨h0, hw⟩

theorem not_mem_splitOnPPrepend {cs acc w : List UInt8} (hacc : space ∉ acc)
    (hw : w ∈ List.splitOnPPrepend (· == space) cs acc) : space ∉ w := by
  induction cs generalizing acc with
  | nil =>
    simp only [List.splitOnPPrepend_nil, List.mem_singleton] at hw
    simpa [hw] using hacc
  | cons c cs ih =>
    by_cases hc : c = space
    · rw [List.splitOnPPrepend_cons_pos (by simpa using hc)] at hw
      rcases List.mem_cons.mp hw with rfl | hw
      · simpa using hacc
      · exact ih (by simp) hw
    · rw [List.splitOnPPrepend_cons_neg (by simpa using hc)] at hw
      exact ih (by simp [hacc, Ne.symm hc]) hw

/-- Words with a blank behind each are read back. -/
theorem words_flatMap {l : List (List UInt8)} (h : ∀ w ∈ l, w ≠ [] ∧ space ∉ w) :
    words (l.flatMap (· ++ [space])) = l := by
  induction l with
  | nil => simp [words]
  | cons w l ih =>
    obtain ⟨hne, hsp⟩ := h w List.mem_cons_self
    have ih := ih fun w' hw' => h w' (List.mem_cons_of_mem _ hw')
    rw [words] at ih ⊢
    rw [List.flatMap_cons, List.append_assoc, List.singleton_append,
      List.splitOn_append_cons_self_of_not_mem hsp, List.filter_cons, ih]
    simp [hne]

/-- The words of what is printed of the items of a line. -/
theorem words_printed (s : List UInt8) :
    words (printed (items s)) = (s.splitOn space).filterMap fun w => (splitItem w).text := by
  rw [printed, items, List.filterMap_map, words_flatMap]
  · rfl
  · intro u hu
    obtain ⟨w, hw, htext⟩ := List.mem_filterMap.mp hu
    exact mem_text (@not_mem_splitOnPPrepend _ [] _ (by simp) hw) htext

theorem length_texts_le (l : List (List UInt8)) :
    (l.filterMap fun w => (splitItem w).text).flatten.length ≤ l.flatten.length ∧
      ((∃ w ∈ l, w ≠ [] ∧ ¬ GoodWord w) →
        (l.filterMap fun w => (splitItem w).text).flatten.length < l.flatten.length) := by
  induction l with
  | nil => simp
  | cons w l ih =>
    obtain ⟨hle, hlt⟩ := ih
    -- the share of `w` is not larger, and smaller if `w` is bad
    have hw : ((splitItem w).text.getD []).length ≤ w.length ∧
        (w ≠ [] → ¬ GoodWord w → ((splitItem w).text.getD []).length < w.length) := by
      by_cases hne : w = []
      · subst hne
        simp [splitItem, Item.text]
      · rcases text_splitItem hne with ⟨hg, ht⟩ | ⟨hb, ht⟩
        · simp [ht, hg]
        · cases htext : (splitItem w).text with
          | none => exact ⟨Nat.zero_le _, fun _ _ => List.length_pos_iff.mpr hne⟩
          | some u =>
            have := ht u (by rw [htext]; rfl)
            simp only [Option.getD_some]
            omega
    have hcons : ((w :: l).filterMap fun w => (splitItem w).text).flatten.length =
        ((splitItem w).text.getD []).length +
          (l.filterMap fun w => (splitItem w).text).flatten.length := by
      cases htext : (splitItem w).text <;> simp [htext]
    rw [hcons, List.flatten_cons, List.length_append]
    refine ⟨by omega, ?_⟩
    rintro ⟨w', hmem, hne, hbad⟩
    rcases List.mem_cons.mp hmem with rfl | hmem
    · have := hw.2 hne hbad
      omega
    · have := hlt ⟨w', hmem, hne, hbad⟩
      omega

/-- The items are printed as they were if and only if all words are good. -/
theorem words_printed_iff (s : List UInt8) :
    words (printed (items s)) = words s ↔ ∀ w ∈ words s, GoodWord w := by
  rw [words_printed]
  constructor
  · intro h w hw
    obtain ⟨hmem, hne⟩ : w ∈ s.splitOn space ∧ w ≠ [] := by simpa [words] using hw
    by_contra hbad
    have hlt := (length_texts_le (s.splitOn space)).2 ⟨w, hmem, hne, hbad⟩
    rw [h, words, List.flatten_filter_ne_nil] at hlt
    exact lt_irrefl _ hlt
  · intro h
    rw [words, ← List.filterMap_eq_filter]
    refine List.filterMap_congr fun w hw => ?_
    by_cases hne : w = []
    · subst hne
      simp [splitItem, Item.text, Option.guard]
    · rcases text_splitItem hne with ⟨_, ht⟩ | ⟨hb, _⟩
      · simp [ht, Option.guard, hne]
      · exact absurd (h w (by simpa [words, hne] using hw)) hb

/-- **Parsing and printing.** The line that is printed from a table that was just parsed has
the words of the line that was parsed if and only if it fits into the buffer and all words
have a key and no empty value behind an `=`. -/
theorem bootargsUpdate_words_iff {s : CString} (h : Rep t (items s.bytes)) :
    (bootargsUpdate t).map words = some (words s.bytes) ↔
      (printed (items s.bytes)).length < 2048 ∧ ∀ w ∈ words s.bytes, GoodWord w := by
  rw [bootargsUpdate_eq h, ← words_printed_iff]
  split <;> simp [*]

/-! ### Editing -/

/-- The loop of `update_val` and `get_bootargs_val`, with `n` items to go: the first item
whose key starts with the name (`strncmp` over `strlen(name)` characters). -/
def findName (t : Table) (name : List UInt8) : ℕ → ℕ → Option (Option ℕ)
  | _, 0 => some none
  | i, n + 1 => do
    let e ← t.prop[i]?
    let p ← e.prop.str
    if name.isPrefixOf p then return some i
    else findName t name (i + 1) n

/-- `update_val`. -/
def updateVal (t : Table) (name val : CString) : Option Table := do
  match ← findName t name.bytes 0 (t.propCnt + 1) with
  | none => return t
  | some i => t.modify i fun e => (e.val.puts val.bytes).map fun f => { e with val := f }

/-- `add_val`; a `NULL` key is turned away. -/
def addVal (t : Table) (key val : Option CString) : Option Table :=
  match key with
  | none => some t
  | some key => do
    let t ← { t with propCnt := t.propCnt + 1 }.modify (t.propCnt + 1) fun e =>
      (e.prop.puts key.bytes).map fun f => { e with prop := f }
    match val with
    | none => t.putVal t.propCnt 0 0
    | some val => t.modify t.propCnt fun e =>
      (e.val.puts val.bytes).map fun f => { e with val := f }

/-- The test of `remove_val` on one item. -/
def removes (key : List UInt8) (val : Option CString) (p v : List UInt8) : Bool :=
  key = p && match val with
    | none => v.length = 0
    | some val => val.bytes = v

/-- The loop of `remove_val` from item `i` on, with `n` items to go: the table, and whether
an item was found. -/
def removeFrom (key : CString) (val : Option CString) : ℕ → ℕ → Table × Bool →
    Option (Table × Bool)
  | _, 0, s => some s
  | i, n + 1, (t, find) => do
    let e ← t.prop[i]?
    let p ← e.prop.str
    let v ← e.val.str
    if removes key.bytes val p v then do
      let t ← t.modify i fun _ => some ⟨Vector.replicate 128 0, Vector.replicate 128 0⟩
      removeFrom key val (i + 1) n (t, true)
    else removeFrom key val (i + 1) n (t, find)

/-- `remove_val`. -/
def removeVal (t : Table) (key : CString) (val : Option CString) : Option (Table × Bool) :=
  removeFrom key val 0 (t.propCnt + 1) (t, false)

/-- The calls on the table after it was parsed. -/
inductive Call where
  | add (key val : Option CString)
  | update (name val : CString)
  | remove (key : CString) (val : Option CString)
  | print

/-- One call; `none` when it leaves a field, the table or the buffer. -/
def step (t : Table) : Call → Option Table
  | .add key val => addVal t key val
  | .update name val => updateVal t name val
  | .remove key val => (removeVal t key val).map (·.1)
  | .print => (bootargsUpdate t).map fun _ => t

/-! ### What the calls are for -/

/-- Updating changes the value of the first item whose key is the name. -/
def updated (l : List Item) (name val : List UInt8) : List Item :=
  match l.findIdx? fun it => it.key = name with
  | none => l
  | some i => l.modify i fun it => { it with val := val }

/-- Removing empties the items that are equal to the key and the value; nothing is printed
of an empty item. -/
def removed (l : List Item) (key val : List UInt8) : List Item :=
  l.map fun it => if it = ⟨key, val⟩ then ⟨[], []⟩ else it

/-- What a call does to the items. -/
def specStep (l : List Item) : Call → List Item
  | .add none _ => l
  | .add (some key) val => l ++ [⟨key.bytes, (val.map CString.bytes).getD []⟩]
  | .update name val => updated l name.bytes val.bytes
  | .remove key val => removed l key.bytes ((val.map CString.bytes).getD [])
  | .print => l

/-- When a call does what it is for.  An added item needs room in the table and in its
fields.  The first item whose key starts with the name has it as its key, or the value is
there already, where it was put and where it should be.  The line that is printed fits into
the buffer. -/
def CallOk (l : List Item) : Call → Prop
  | .add none _ => True
  | .add (some key) val => l.length < 64 ∧ key.bytes.length < 128 ∧
      ((val.map CString.bytes).getD []).length < 128
  | .update name val => ∀ i it, l[i]? = some it →
      l.findIdx? (fun it => name.bytes.isPrefixOf it.key) = some i →
        val.bytes.length < 128 ∧ (it.key = name.bytes ∨
          it.val = val.bytes ∧ updated l name.bytes val.bytes = l)
  | .remove _ _ => True
  | .print => (printed l).length < 2048

/-! ### Each call -/

theorem findName_eq {name : List UInt8} (h : ∀ j it, l[j]? = some it → IsItem t (i + j) it) :
    findName t name i l.length =
      some ((l.findIdx? fun it => name.isPrefixOf it.key).map (· + i)) := by
  induction l generalizing i with
  | nil => rfl
  | cons it l ih =>
    obtain ⟨e, he, hk, _⟩ := h 0 it (by simp)
    have hrest : ∀ j it', l[j]? = some it' → IsItem t (i + 1 + j) it' := fun j it' hj => by
      have := h (j + 1) it' (by simpa using hj)
      rwa [show i + (j + 1) = i + 1 + j by omega] at this
    rw [Nat.add_zero] at he
    rw [List.length_cons, findName, List.findIdx?_cons]
    simp only [he, hk, Option.bind_eq_bind, Option.bind_some, Option.pure_def]
    by_cases hp : name.isPrefixOf it.key
    · simp [hp]
    · rw [if_neg hp, if_neg hp, ih hrest, Option.map_map]
      congr 2
      funext j
      simp only [Function.comp]
      omega

/-- One entry of a table that stands for `l` is changed to another item. -/
theorem Rep.modify (h : Rep t l) (hi : l[i]? = some it) {g : BootargsProp → Option BootargsProp}
    (hg : ∀ e : BootargsProp, e.prop.str = some it.key → e.val.str = some it.val →
      ∃ e', g e = some e' ∧ e'.prop.str = some it'.key ∧ e'.val.str = some it'.val) :
    ∃ t', t.modify i g = some t' ∧ Rep t' (l.set i it') := by
  obtain ⟨e, he, hk, hv⟩ := h.items i it hi
  obtain ⟨e', hge, hk', hv'⟩ := hg e hk hv
  obtain ⟨t', ht, hcnt, hself, hother⟩ := Table.modify_of_eq he hge
  refine ⟨t', ht, by rw [hcnt, h.count, List.length_set], fun j itj hj => ?_⟩
  by_cases hij : i = j
  · subst hij
    rw [List.getElem?_set_self (List.getElem?_eq_some_iff.mp hi).1, Option.some.injEq] at hj
    exact hj ▸ ⟨e', hself, hk', hv'⟩
  · rw [List.getElem?_set_ne hij] at hj
    exact (h.items j itj hj).congr (hother j (Ne.symm hij))

theorem set_of_getElem? (hi : l[i]? = some it) : l.set i it = l := by
  obtain ⟨hlt, rfl⟩ := List.getElem?_eq_some_iff.mp hi
  exact List.set_getElem_self hlt

/-- Updating leaves all items alone that have another key. -/
theorem getElem?_updated {name val : List UInt8}
    (hi : l[i]? = some it) (hne : it.key ≠ name) : (updated l name val)[i]? = some it := by
  rw [updated]
  split
  · exact hi
  · rename_i j hj
    obtain ⟨hlt, hkey, _⟩ := List.findIdx?_eq_some_iff_getElem.mp hj
    have hij : j ≠ i := by
      rintro rfl
      rw [List.getElem?_eq_getElem hlt, Option.some.injEq] at hi
      exact hne (by simpa [hi] using hkey)
    simp [hij, hi]

/-- The first item with a prefix is the first item with the key, if it has that key. -/
theorem updated_of_key {name val : List UInt8} (hi : l[i]? = some it)
    (hfirst : l.findIdx? (fun it => name.isPrefixOf it.key) = some i) (hk : it.key = name) :
    updated l name val = l.set i { it with val := val } := by
  obtain ⟨hlt, _, hbefore⟩ := List.findIdx?_eq_some_iff_getElem.mp hfirst
  have hget : l[i] = it := by
    rw [List.getElem?_eq_getElem hlt] at hi
    exact Option.some.inj hi
  have hidx : l.findIdx? (fun it => it.key = name) = some i := by
    refine List.findIdx?_eq_some_iff_getElem.mpr ⟨hlt, by simp [hget, hk], fun j hj => ?_⟩
    have := hbefore j hj
    simp only [decide_eq_true_eq]
    rintro he
    exact this (he ▸ List.isPrefixOf_iff_prefix.mpr (List.prefix_refl _))
  rw [updated, hidx]
  simp only
  rw [List.modify_eq_set_getElem?, hi]
  rfl

/-- What `update_val` does: the first item whose key starts with the name gets the value. -/
theorem updateVal_of_found (h : Rep t l) {name val : CString} (hi : l[i]? = some it)
    (hidx : l.findIdx? (fun it => name.bytes.isPrefixOf it.key) = some i)
    (hv : val.bytes.length < 128) :
    ∃ t', updateVal t name val = some t' ∧ Rep t' (l.set i { it with val := val.bytes }) := by
  obtain ⟨t', ht, hrep⟩ := @Rep.modify _ _ _ _ { it with val := val.bytes } h hi
    (fun e => (e.val.puts val.bytes).map fun f => { e with val := f }) fun e hek _ => by
      obtain ⟨f, hf⟩ := Field.puts_of_lt e.val hv
      exact ⟨{ e with val := f }, by rw [hf]; rfl, hek, Field.str_puts hf⟩
  refine ⟨t', ?_, hrep⟩
  have hfind := @findName_eq t l 0 name.bytes (fun j it hj => by simpa using h.items j it hj)
  rw [updateVal, h.count, hfind, hidx]
  exact ht

/-- A value that `update_val` writes has room in its field. -/
theorem length_lt_of_updateVal (h : Rep t l) {name val : CString}
    (hidx : l.findIdx? (fun it => name.bytes.isPrefixOf it.key) = some i)
    (ht : updateVal t name val = some t') : val.bytes.length < 128 := by
  have hfind := @findName_eq t l 0 name.bytes (fun j it hj => by simpa using h.items j it hj)
  rw [updateVal, h.count, hfind, hidx] at ht
  obtain ⟨e, e', _, hg, _⟩ := @Table.of_modify _ t' i
    (fun e => (e.val.puts val.bytes).map fun f => { e with val := f }) ht
  obtain ⟨f, hf, _⟩ := Option.map_eq_some_iff.mp hg
  exact Field.length_lt_of_puts hf

/-- **`update_val`.** It changes just the item whose key is the name if and only if that is
the first one whose key starts with it, or the value is not new. -/
theorem updateVal_iff (h : Rep t l) (name val : CString) :
    (∃ t', updateVal t name val = some t' ∧ Rep t' (updated l name.bytes val.bytes)) ↔
      CallOk l (.update name val) := by
  cases hidx : l.findIdx? fun it => name.bytes.isPrefixOf it.key with
  | none =>
    have hfind := @findName_eq t l 0 name.bytes (fun j it hj => by simpa using h.items j it hj)
    have hsame : updateVal t name val = some t := by
      rw [updateVal, h.count, hfind, hidx]
      rfl
    have hno : updated l name.bytes val.bytes = l := by
      rw [updated, List.findIdx?_eq_none_iff.mpr]
      intro it hit
      have := List.findIdx?_eq_none_iff.mp hidx it hit
      simp only [decide_eq_false_iff_not]
      intro hk
      rw [hk, List.isPrefixOf_iff_prefix.mpr (List.prefix_refl _)] at this
      cases this
    rw [hno]
    exact iff_of_true ⟨t, hsame, h⟩ (by simp [CallOk, hidx])
  | some i =>
    obtain ⟨hlt, _, _⟩ := List.findIdx?_eq_some_iff_getElem.mp hidx
    have hi := List.getElem?_eq_getElem hlt
    generalize l[i] = it at hi
    constructor
    · rintro ⟨t', ht, hrep⟩ j itj hj hji
      cases hidx.symm.trans hji
      rw [hi, Option.some.injEq] at hj
      subst hj
      have hv := length_lt_of_updateVal h hidx ht
      obtain ⟨t'', ht', hrep'⟩ := updateVal_of_found h hi hidx hv
      cases ht.symm.trans ht'
      have heq := hrep.unique hrep'
      refine ⟨hv, or_iff_not_imp_left.mpr fun hne => ?_⟩
      -- the item was not to be changed, so it has the value already
      have hsame := @getElem?_updated _ _ _ _ val.bytes hi hne
      rw [heq, List.getElem?_set_self hlt, Option.some.injEq] at hsame
      refine ⟨(congrArg Item.val hsame).symm, ?_⟩
      rw [heq, hsame]
      exact set_of_getElem? hi
    · intro hok
      obtain ⟨hv, hcase⟩ := hok i it hi hidx
      obtain ⟨t', ht, hrep⟩ := updateVal_of_found h hi hidx hv
      refine ⟨t', ht, ?_⟩
      rcases hcase with hk | ⟨hval, hsame⟩
      · rwa [updated_of_key hi hidx hk]
      · rw [← hval] at hrep
        have hset : l.set i { it with val := it.val } = l := set_of_getElem? hi
        rw [hsame]
        rwa [hset] at hrep

theorem Field.str_zero : Field.str (Vector.replicate 128 0) = some [] :=
  Field.holds_zero.str (by simp) (by simp)

/-- A NUL at the start makes the string empty. -/
theorem Field.str_put_zero (f : Field) : ∃ f', f.put 0 0 = some f' ∧ f'.str = some [] := by
  refine ⟨_, dif_pos (by omega), ?_⟩
  have hlen : f.toList.length = 128 := f.size_toArray
  obtain ⟨b, bs, hf⟩ : ∃ b bs, f.toList = b :: bs := by
    cases hf : f.toList with
    | nil => simp [hf] at hlen
    | cons b bs => exact ⟨b, bs, rfl⟩
  rw [Field.str, Vector.toList_set, hf]
  simp

/-- The value that `add_val` writes. -/
theorem addVal_value {e : BootargsProp} (val : Option CString) (he : t.prop[t.propCnt]? = some e)
    (hv : ((val.map CString.bytes).getD []).length < 128) :
    ∃ t' f, (match val with
        | none => t.putVal t.propCnt 0 0
        | some val => t.modify t.propCnt fun e =>
          (e.val.puts val.bytes).map fun f => { e with val := f }) = some t' ∧
      f.str = some ((val.map CString.bytes).getD []) ∧ t'.propCnt = t.propCnt ∧
      t'.prop[t.propCnt]? = some { e with val := f } ∧
      ∀ j, j ≠ t.propCnt → t'.prop[j]? = t.prop[j]? := by
  cases val with
  | none =>
    obtain ⟨f, hf, hstr⟩ := Field.str_put_zero e.val
    obtain ⟨t', ht, h⟩ := @Table.modify_of_eq _ _
      (fun e => (e.val.put 0 0).map fun f => { e with val := f }) _ { e with val := f } he
      (by rw [hf]; rfl)
    exact ⟨t', f, ht, hstr, h⟩
  | some val =>
    obtain ⟨f, hf⟩ := Field.puts_of_lt e.val hv
    obtain ⟨t', ht, h⟩ := @Table.modify_of_eq _ _
      (fun e => (e.val.puts val.bytes).map fun f => { e with val := f }) _ { e with val := f } he
      (by simp only [Option.map_some, Option.getD_some] at hf; rw [hf]; rfl)
    exact ⟨t', f, ht, Field.str_puts hf, h⟩

/-- **`add_val`.** It appends just the item if and only if there is room for it. -/
theorem addVal_iff (h : Rep t l) (key : CString) (val : Option CString) :
    (∃ t', addVal t (some key) val = some t' ∧
        Rep t' (l ++ [⟨key.bytes, (val.map CString.bytes).getD []⟩])) ↔
      CallOk l (.add (some key) val) := by
  constructor
  · rintro ⟨t', _, hrep⟩
    have hle := hrep.length_le
    have hlen := (hrep.items l.length ⟨key.bytes, (val.map CString.bytes).getD []⟩
      (by simp)).length_lt
    exact ⟨by simp at hle; omega, hlen⟩
  · rintro ⟨hlt, hk, hv⟩
    have hcount := h.count
    have he := @Vector.getElem?_eq_getElem _ _ t.prop _ hlt
    generalize t.prop[l.length] = e at he
    obtain ⟨f, hf⟩ := Field.puts_of_lt e.prop hk
    obtain ⟨t₁, ht₁, hcnt₁, hself₁, hother₁⟩ := @Table.modify_of_eq
      { t with propCnt := t.propCnt + 1 } (t.propCnt + 1)
      (fun e => (e.prop.puts key.bytes).map fun f => { e with prop := f }) _
      { e with prop := f } (by rw [hcount]; exact he) (by rw [hf]; rfl)
    obtain ⟨t₂, f', ht₂, hstr, hcnt₂, hself₂, hother₂⟩ :=
      addVal_value val (by rw [hcnt₁]; exact hself₁) hv
    refine ⟨t₂, by simp only [addVal, ht₁]; exact ht₂, ?_, fun j it hj => ?_⟩
    · rw [hcnt₂, hcnt₁]
      simp [hcount]
    · simp only at hcnt₁
      rcases lt_or_ge j l.length with hjl | hjl
      · rw [List.getElem?_append_left hjl] at hj
        refine (h.items j it hj).congr ?_
        rw [hother₂ j (by omega), hother₁ j (by omega)]
      · have hjlt := (List.getElem?_eq_some_iff.mp hj).1
        have hjl' : j = l.length := by simp at hjlt; omega
        subst hjl'
        simp only [List.getElem?_concat_length, Option.some.injEq] at hj
        rw [hcnt₁, hcount] at hself₂
        exact hj ▸ ⟨_, hself₂, Field.str_puts hf, hstr⟩

theorem removes_iff (key : List UInt8) (val : Option CString) (it : Item) :
    removes key val it.key it.val ↔ it = ⟨key, (val.map CString.bytes).getD []⟩ := by
  obtain ⟨k, v⟩ := it
  cases val with
  | none =>
    simp only [removes, Bool.and_eq_true, decide_eq_true_eq, List.length_eq_zero_iff,
      Item.mk.injEq, Option.map_none, Option.getD_none]
    exact and_congr eq_comm Iff.rfl
  | some val =>
    simp only [removes, Bool.and_eq_true, decide_eq_true_eq, Item.mk.injEq, Option.map_some,
      Option.getD_some]
    exact and_congr eq_comm eq_comm

theorem removeFrom_eq {key : CString} {val : Option CString} {l pre : List Item}
    {find : Bool} (h : Rep t (pre ++ l)) :
    ∃ t', removeFrom key val pre.length l.length (t, find) = some (t', find ||
        decide (⟨key.bytes, (val.map CString.bytes).getD []⟩ ∈ l)) ∧
      Rep t' (pre ++ removed l key.bytes ((val.map CString.bytes).getD [])) := by
  induction l generalizing pre t find with
  | nil => exact ⟨t, by simp [removeFrom], by simpa [removed] using h⟩
  | cons it l ih =>
    have hi : (pre ++ it :: l)[pre.length]? = some it := by simp
    obtain ⟨e, he, hk, hv⟩ := h.items _ it hi
    have hmatch := removes_iff key.bytes val it
    generalize (val.map CString.bytes).getD [] = v at *
    by_cases heq : it = ⟨key.bytes, v⟩
    · have hrem := hmatch.mpr heq
      obtain ⟨t₁, ht₁, hrep₁⟩ := @Rep.modify _ _ _ _ ⟨[], []⟩ h hi
        (fun _ => some ⟨Vector.replicate 128 0, Vector.replicate 128 0⟩)
        (fun _ _ _ => ⟨_, rfl, Field.str_zero, Field.str_zero⟩)
      have hpre : (pre ++ it :: l).set pre.length ⟨[], []⟩ = (pre ++ [⟨[], []⟩]) ++ l := by
        simp
      rw [hpre] at hrep₁
      obtain ⟨t', ht', hrep'⟩ := @ih _ _ true hrep₁
      rw [List.length_append, List.length_singleton] at ht'
      refine ⟨t', ?_, by simpa [removed, heq] using hrep'⟩
      rw [List.length_cons, removeFrom]
      simp only [he, hk, hv, hrem, if_true, Option.bind_eq_bind, Option.bind_some, ht₁, ht']
      simp [heq]
    · have hrem : ¬ removes key.bytes val it.key it.val := mt hmatch.mp heq
      obtain ⟨t', ht', hrep'⟩ := @ih _ (pre ++ [it]) find (by simpa using h)
      rw [List.length_append, List.length_singleton] at ht'
      refine ⟨t', ?_, by simpa [removed, heq] using hrep'⟩
      rw [List.length_cons, removeFrom]
      simp only [he, hk, hv, if_neg hrem, Option.bind_eq_bind, Option.bind_some, ht']
      simp [Ne.symm heq]

/-- **`remove_val`.** It empties just the items that are equal to the key and the value, and
says whether there were any. -/
theorem removeVal_eq (h : Rep t l) (key : CString) (val : Option CString) :
    ∃ t', removeVal t key val = some (t',
        decide (⟨key.bytes, (val.map CString.bytes).getD []⟩ ∈ l)) ∧
      Rep t' (removed l key.bytes ((val.map CString.bytes).getD [])) := by
  have hrem := @removeFrom_eq t key val l [] false h
  rw [removeVal, h.count]
  simpa using hrem

/-- **One call.** It does what it is for if and only if its condition holds. -/
theorem step_iff (h : Rep t l) (c : Call) :
    (∃ t', step t c = some t' ∧ Rep t' (specStep l c)) ↔ CallOk l c := by
  cases c with
  | add key val =>
    cases key with
    | none => exact iff_of_true ⟨t, rfl, h⟩ trivial
    | some key => exact addVal_iff h key val
  | update name val => exact updateVal_iff h name val
  | remove key val =>
    obtain ⟨t', ht, hrep⟩ := removeVal_eq h key val
    exact iff_of_true ⟨t', by rw [step, ht]; rfl, hrep⟩ trivial
  | print =>
    simp only [step, bootargsUpdate_eq h, specStep, CallOk]
    split <;> simp [*]

/-- **Runs.** A run of calls that all meet their conditions keeps the table and its items in
step. -/
theorem run_step (h : Rep t l) {cs : List Call}
    (hcs : Along (fun l c => some (specStep l c)) CallOk l cs) :
    ∃ t', run step t cs = some t' ∧ Rep t' (cs.foldl specStep l) := by
  induction cs generalizing t l with
  | nil => exact ⟨t, rfl, h⟩
  | cons c cs ih =>
    obtain ⟨t₁, ht₁, hrep₁⟩ := (step_iff h c).mpr hcs.1
    obtain ⟨t', ht', hrep'⟩ := ih hrep₁ (hcs.2 _ rfl)
    exact ⟨t', run_cons_eq_some.mpr ⟨t₁, ht₁, ht'⟩, hrep'⟩

/-- **Command line editing.** The parser stays in its fields and keeps the items of the line
exactly when there is room for them.  Then the line that is printed from the table has the
words of the line that was parsed exactly when it fits and all words have a key and no empty
value behind an `=`; and after any run of calls that all meet their conditions, the next call
does what it is for, inside of the table, the fields and the buffer, exactly when it meets
its own. -/
theorem bootargs_editing_iff (s : CString) :
    ((∃ t, bootargsInit s = some t ∧ Rep t (items s.bytes)) ↔ InitOk s) ∧
    ∀ t, Rep t (items s.bytes) → ((bootargsUpdate t).map words = some (words s.bytes) ↔
        (printed (items s.bytes)).length < 2048 ∧ ∀ w ∈ words s.bytes, GoodWord w) ∧
      ∀ cs, Along (fun l c => some (specStep l c)) CallOk (items s.bytes) cs →
        ∃ t', run step t cs = some t' ∧ Rep t' (cs.foldl specStep (items s.bytes)) ∧
          ∀ c, (∃ t'', step t' c = some t'' ∧
              Rep t'' (specStep (cs.foldl specStep (items s.bytes)) c)) ↔
            CallOk (cs.foldl specStep (items s.bytes)) c := by
  refine ⟨bootargsInit_rep_iff s, fun t h => ⟨bootargsUpdate_words_iff h, fun cs hcs => ?_⟩⟩
  obtain ⟨t', ht', hrep⟩ := run_step h hcs
  exact ⟨t', ht', hrep, step_iff hrep⟩

def stringA : CString := ⟨[0x61], nonul_letter⟩

def stringB : CString := ⟨[0x62], by decide⟩

def string3 : CString := ⟨[0x33], by decide⟩

/-- `b=3` is added, `a` gets the value 3, and `b=3` is removed. -/
def editCalls : List Call :=
  [.add (some stringB) (some string3), .update stringA string3, .remove stringB (some string3)]

/-- The line `a=1` is parsed and printed with the same words, and after the calls it is `a=3`. -/
theorem bootargs_editing_iff_a1 :
    ∃ t t', bootargsInit ⟨[0x61, 0x3d, 0x31], by decide⟩ = some t ∧
      (bootargsUpdate t).map words = some [[0x61, 0x3d, 0x31]] ∧
      run step t editCalls = some t' ∧ (bootargsUpdate t').map words = some [[0x61, 0x3d, 0x33]] := by
  have h := bootargs_editing_iff ⟨[0x61, 0x3d, 0x31], by decide⟩
  obtain ⟨t, ht, hrep⟩ := h.1.mpr (by decide)
  obtain ⟨hprint, hruns⟩ := h.2 t hrep
  have hcalls : Along (fun l c => some (specStep l c)) CallOk (items [0x61, 0x3d, 0x31])
      editCalls := by
    refine ⟨⟨by decide, by decide, by decide⟩, fun l hl => ?_⟩
    obtain rfl := Option.some.inj hl
    refine ⟨fun i it hi hidx => ?_, fun _ _ => ⟨trivial, fun _ _ => trivial⟩⟩
    obtain rfl : 0 = i := Option.some.inj hidx
    obtain rfl := Option.some.inj hi
    exact ⟨by decide, .inl (by decide)⟩
  obtain ⟨t', hrun, hrep', -⟩ := hruns editCalls hcalls
  refine ⟨t, t', ht, hprint.mpr (by decide), hrun, ?_⟩
  rw [bootargsUpdate_eq hrep']
  decide

/-! ### Lines and calls that go wrong -/

/-- `quiet=`. -/
def quietLine : CString := ⟨[0x71, 0x75, 0x69, 0x65, 0x74, 0x3d], by decide⟩

/-- `ab=1 a=2`. -/
def prefixLine : CString := ⟨[0x61, 0x62, 0x3d, 0x31, 0x20, 0x61, 0x3d, 0x32], by decide⟩

/-- 63 blanks, which make 64 items. -/
def blankLine : CString := ⟨List.replicate 63 space, by simp [space]⟩

/-- `quiet=` is printed as `quiet`; `update_val("a", "3")` changes the item `ab` of
`ab=1 a=2`; and behind 64 items, `add_val("a", NULL)` writes outside of the table. -/
theorem bootargs_editing_faults :
    (∃ t, bootargsInit quietLine = some t ∧
      (bootargsUpdate t).map words = some [[0x71, 0x75, 0x69, 0x65, 0x74]] ∧
      words quietLine.bytes = [[0x71, 0x75, 0x69, 0x65, 0x74, 0x3d]]) ∧
    (∃ t t', bootargsInit prefixLine = some t ∧ step t (.update stringA string3) = some t' ∧
      IsItem t 0 ⟨[0x61, 0x62], [0x31]⟩ ∧ IsItem t' 0 ⟨[0x61, 0x62], [0x33]⟩) ∧
    (∃ t, bootargsInit blankLine = some t ∧ step t (.add (some stringA) none) = none) := by
  refine ⟨?_, ?_, ?_⟩
  · obtain ⟨t, ht, hrep⟩ := (bootargsInit_rep_iff quietLine).mpr (by decide)
    refine ⟨t, ht, ?_, by decide⟩
    rw [bootargsUpdate_eq hrep]
    decide
  · obtain ⟨t, ht, hrep⟩ := (bootargsInit_rep_iff prefixLine).mpr (by decide)
    obtain ⟨t', ht', hrep'⟩ := @updateVal_of_found _ _ 0 ⟨[0x61, 0x62], [0x31]⟩ hrep
      stringA string3 (by decide) (by decide) (by decide)
    exact ⟨t, t', ht, ht', hrep.items 0 _ (by decide), hrep'.items 0 _ (by decide)⟩
  · obtain ⟨t, ht, hrep⟩ := (bootargsInit_rep_iff blankLine).mpr (by decide)
    have hcount : t.propCnt + 1 = 64 := by
      rw [hrep.count]
      decide
    exact ⟨t, ht, by simp [step, addVal, Table.modify, hcount]⟩

end CmdBoot
end LittleKernel
