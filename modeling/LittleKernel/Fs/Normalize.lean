/-
# Path normalisation

`lib/fs/fs.c`: `fs_normalize_path`.

The buffer is a list of characters with a `nul` behind the string.  One pass of the loop
reads a character, changes the state of the automaton and may write behind what it has
kept so far; an access outside the buffer is undefined.  `read` is the position that was
read last and `writes` the log of the writes, each with that position; the program has
neither.

Over it, a path is the list of its components (`components`), and normalising is a stack:
`push` drops what is empty or `.` and lets `..` take away the name before it.  A path
without names becomes the empty string, which `cmd_cd` takes for the root.  A `..` at the
root takes the leading slash away (`pushOn`).
-/

import Mathlib.Data.List.Basic
import Mathlib.Data.List.Infix
import Mathlib.Logic.Relation

namespace LittleKernel
namespace Fs
namespace Normalize

/-! ### The automaton -/

/-- The end of a string. -/
def nul : Char := Char.ofNat 0

/-- The states of the automaton. -/
inductive Phase
  | initial
  | fieldStart
  | inField
  | sep
  | seenSep
  | dot
  | seenDot
  | dotdot
  | seenDotdot
  deriving DecidableEq

/-- The buffer, the locals of the function and the record of its accesses. -/
structure State where
  path : List Char
  pos : ℕ
  outpos : ℕ
  phase : Phase
  done : Bool
  read : ℕ
  writes : List (ℕ × ℕ)
  deriving DecidableEq

/-- `path[outpos++] = c`. -/
def State.emit (c : Char) (s : State) : Option State :=
  if s.outpos < s.path.length then
    some { s with
      path := s.path.set s.outpos c
      outpos := s.outpos + 1
      writes := s.writes ++ [(s.outpos, s.read)] }
  else none

/-- `pos++`. -/
def State.advance (s : State) : State := { s with pos := s.pos + 1 }

/-- `state = phase`. -/
def State.goto (phase : Phase) (s : State) : State := { s with phase := phase }

/-- `done = true`. -/
def State.stop (s : State) : State := { s with done := true }

/-- Backwards from `outpos` to the next field boundary. -/
def walkBack (path : List Char) : ℕ → ℕ
  | 0 => 0
  | n + 1 => if path[n]? = some '/' then n + 1 else walkBack path n

/-- The cases of the automaton on the character `c`. -/
def act (c : Char) (s : State) : Option State :=
  match s.phase with
  | .initial =>
    some (s.goto (if c = '/' then .sep else if c = '.' then .dot else .fieldStart))
  | .fieldStart =>
    if c = '.' then some (s.goto .dot)
    else if c = nul then some s.stop
    else some (s.goto .inField)
  | .inField =>
    if c = '/' then some (s.goto .sep)
    else if c = nul then some s.stop
    else (s.emit c).map State.advance
  | .sep => (s.advance.emit '/').map (State.goto .seenSep)
  | .seenSep =>
    if c = '/' then some s.advance
    else if c = nul then some s.stop
    else some (s.goto .fieldStart)
  | .dot => some (s.advance.goto .seenDot)
  | .seenDot =>
    if c = '.' then some (s.goto .dotdot)
    else if c = '/' then some (s.advance.goto .seenSep)
    else if c = nul then some s.stop
    else (s.emit '.').map (State.goto .inField)
  | .dotdot => some (s.advance.goto .seenDotdot)
  | .seenDotdot =>
    if c = '/' ∨ c = nul then
      let s := if 0 < s.outpos then { s with outpos := walkBack s.path (s.outpos - 1) } else s
      let s := s.advance.goto .seenSep
      some (if c = nul then s.stop else s)
    else do
      let s ← s.emit '.'
      (s.emit '.').map (State.goto .inField)

/-- One pass of the loop. -/
def step (s : State) : Option State :=
  s.path[s.pos]?.bind fun c => act c { s with read := s.pos }

/-- The loop, for at most `n` passes. -/
def loop : ℕ → State → Option State
  | 0, _ => none
  | n + 1, s => if s.done then some s else (step s).bind (loop n)

/-- Behind the loop: no trailing slash, and the end of the string. -/
def finish (s : State) : Option State :=
  State.emit nul <|
    if 0 < s.outpos ∧ s.path[s.outpos - 1]? = some '/' then { s with outpos := s.outpos - 1 } else s

/-- What the locals start with. -/
def start (path : List Char) : State := ⟨path, 0, 0, .initial, false, 0, []⟩

/-- `fs_normalize_path`, for at most `n` passes of its loop. -/
def fsNormalizePath (n : ℕ) (path : List Char) : Option State :=
  (loop n (start path)).bind finish

/-- The string in the buffer. -/
def State.result (s : State) : List Char := s.path.takeWhile (· ≠ nul)

/-- **`fs_normalize_path` terminates** on the buffer `path` and leaves `s`. -/
def Ends (path : List Char) (s : State) : Prop := ∃ n, fsNormalizePath n path = some s

/-- No write is ahead of the position that has been read. -/
def State.NeverAhead (s : State) : Prop := ∀ w ∈ s.writes, w.1 ≤ w.2

/-! ### Paths as lists of names -/

/-- What stands between the slashes. -/
def components (path : List Char) : List (List Char) := path.splitOn '/'

/-- A component on top of the names before it. -/
def push (names : List (List Char)) (w : List Char) : List (List Char) :=
  if w = [] ∨ w = ['.'] then names
  else if w = ['.', '.'] then names.dropLast
  else names ++ [w]

/-- The names that are left of a list of components. -/
def reduce (ws : List (List Char)) : List (List Char) := ws.foldl push []

/-- The names joined by single slashes, behind a slash when the path is `rooted`. -/
def join (rooted : Bool) (names : List (List Char)) : List Char :=
  (if rooted then ['/'] else []) ++ ['/'].intercalate names

/-- `join`, with the empty string for a path that has no names. -/
def render (rooted : Bool) (names : List (List Char)) : List Char :=
  if names = [] then [] else join rooted names

/-- A `..` that finds no name before it. -/
def AboveRoot (ws : List (List Char)) : Prop :=
  ∃ before, before ++ [['.', '.']] <+: ws ∧ reduce before = []

/-- A component on top of a path as the automaton keeps it: at the root, `..` takes the
leading slash. -/
def pushOn (kept : Bool × List (List Char)) (w : List Char) : Bool × List (List Char) :=
  (kept.1 && !(decide (w = ['.', '.']) && kept.2.isEmpty), push kept.2 w)

/-- What `fs_normalize_path` makes of a string. -/
def normalized (path : List Char) : List Char :=
  let kept := (components path).foldl pushOn (path.head? = some '/', [])
  render kept.1 kept.2

/-! ### The automaton on a buffer split at its two positions -/

section Simulation

/-- Passes of the loop. -/
def Reaches : State → State → Prop :=
  Relation.ReflTransGen fun a b => a.done = false ∧ step a = some b

/-- The automaton is in state `phase`, has kept `out` and has yet to read `rest`; `gap`
characters between them are free. -/
structure At (s : State) (phase : Phase) (out : List Char) (gap : ℕ) (rest : List Char) :
    Prop where
  phase : s.phase = phase
  going : s.done = false
  outpos : s.outpos = out.length
  pos : s.pos = s.outpos + gap
  path : ∃ free, free.length = gap ∧ s.path = out ++ free ++ rest
  writes : s.NeverAhead

/-- The loop is over and has kept `out`; there is room for the end of the string. -/
structure Ended (s : State) (out : List Char) : Prop where
  done : s.done = true
  outpos : s.outpos = out.length
  path : ∃ free, free ≠ [] ∧ s.path = out ++ free
  read : s.outpos ≤ s.read
  writes : s.NeverAhead

variable {s s' : State} {phase : Phase} {out rest w : List Char} {gap : ℕ} {c : Char}

theorem At.read_eq (h : At s phase out gap (c :: rest)) : s.path[s.pos]? = some c := by
  obtain ⟨free, hfree, hpath⟩ := h.path
  have hlen : s.pos = (out ++ free).length := by
    rw [h.pos, h.outpos, List.length_append, hfree]
  rw [hpath, hlen, List.getElem?_append_right (Nat.le_refl _), Nat.sub_self]
  rfl

/-- One pass, by what the state does with the character read. -/
theorem At.step (h : At s phase out gap (c :: rest))
    (hs : act c { s with read := s.pos } = some s') : Reaches s s' := by
  refine Relation.ReflTransGen.single ⟨h.going, ?_⟩
  rw [Normalize.step, h.read_eq]
  exact hs

theorem At.setRead (h : At s phase out gap rest) (n : ℕ) :
    At { s with read := n } phase out gap rest :=
  ⟨h.phase, h.going, h.outpos, h.pos, h.path, h.writes⟩

theorem At.goto (h : At s phase out gap rest) (next : Phase) :
    At (s.goto next) next out gap rest :=
  ⟨rfl, h.going, h.outpos, h.pos, h.path, h.writes⟩

theorem At.advance (h : At s phase out gap (c :: rest)) :
    At s.advance phase out (gap + 1) rest := by
  obtain ⟨free, hfree, hpath⟩ := h.path
  refine ⟨h.phase, h.going, h.outpos, ?_, ⟨free ++ [c], ?_, ?_⟩, h.writes⟩
  · simp only [State.advance, h.pos, Nat.add_assoc]
  · rw [List.length_append, hfree, List.length_singleton]
  · simp [State.advance, hpath]

/-- **A character is kept** in the free room. -/
theorem At.emit (h : At s phase out (gap + 1) rest) (hread : s.outpos ≤ s.read) (c : Char) :
    ∃ s', s.emit c = some s' ∧ At s' phase (out ++ [c]) gap rest ∧ s'.read = s.read := by
  obtain ⟨free, hfree, hpath⟩ := h.path
  obtain ⟨f, free, rfl⟩ := List.exists_cons_of_length_eq_add_one hfree
  have hlt : s.outpos < s.path.length := by
    rw [hpath, h.outpos]
    simp only [List.length_append, List.length_cons]
    omega
  refine ⟨_, if_pos hlt, ⟨h.phase, h.going, ?_, ?_, ⟨free, ?_, ?_⟩, ?_⟩, rfl⟩
  · simp [h.outpos]
  · simp only [h.pos]
    omega
  · simpa using hfree
  · simp [hpath, h.outpos]
  · intro w hw
    rcases List.mem_append.1 hw with hw | hw
    · exact h.writes w hw
    · rw [List.mem_singleton.1 hw]
      exact hread

theorem emit_advance (c : Char) (s : State) :
    (s.emit c).map State.advance = s.advance.emit c := by
  unfold State.emit State.advance
  split_ifs <;> rfl

section

variable (h : At s phase out gap (c :: rest))
include h

theorem At.stop (hread : s.outpos ≤ s.read) :
    Ended s.stop out := by
  obtain ⟨free, -, hpath⟩ := h.path
  exact ⟨rfl, h.outpos, ⟨free ++ c :: rest, by simp, by simp [State.stop, hpath]⟩, hread, h.writes⟩

/-- A pass that only changes the state of the automaton. -/
theorem At.move (next : Phase)
    (hact : ∀ s : State, s.phase = phase → act c s = some (s.goto next)) :
    ∃ s', Reaches s s' ∧ At s' next out gap (c :: rest) :=
  ⟨_, h.step (hact _ h.phase), (h.setRead _).goto next⟩

/-- A pass that passes over the character. -/
theorem At.skip (next : Phase)
    (hact : ∀ s : State, s.phase = phase → act c s = some (s.advance.goto next)) :
    ∃ s', Reaches s s' ∧ At s' next out (gap + 1) rest :=
  ⟨_, h.step (hact _ h.phase), (h.setRead _).advance.goto next⟩

/-- A pass that ends the loop. -/
theorem At.halt (hact : ∀ s : State, s.phase = phase → act c s = some s.stop) :
    ∃ s', Reaches s s' ∧ Ended s' out := by
  refine ⟨_, h.step (hact _ h.phase), (h.setRead _).stop ?_⟩
  have := h.pos
  simp only
  omega

end

theorem act_inField (h : s.phase = .inField) (hslash : c ≠ '/') (hnul : c ≠ nul) :
    act c s = (s.emit c).map State.advance := by
  simp only [act, h, if_neg hslash, if_neg hnul]

theorem act_sep (h : s.phase = .sep) :
    act c s = (s.advance.emit '/').map (State.goto .seenSep) := by
  simp only [act, h]

/-- A pass that keeps the character. -/
theorem At.copy (h : At s .inField out gap (c :: rest)) (hslash : c ≠ '/') (hnul : c ≠ nul) :
    ∃ s', Reaches s s' ∧ At s' .inField (out ++ [c]) gap rest := by
  have hread : s.outpos ≤ s.pos := by
    have := h.pos
    omega
  obtain ⟨s', hemit, hs', -⟩ := ((h.setRead s.pos).advance).emit hread c
  refine ⟨s', h.step ?_, hs'⟩
  rw [act_inField (h.setRead s.pos).phase hslash hnul, emit_advance, hemit]

/-- **A field is copied.** -/
theorem At.field : ∀ {w out : List Char} {s : State},
    At s .inField out gap (w ++ rest) → (∀ c ∈ w, c ≠ '/' ∧ c ≠ nul) →
      ∃ s', Reaches s s' ∧ At s' .inField (out ++ w) gap rest
  | [], out, s, h, _ => ⟨s, Relation.ReflTransGen.refl, by simpa using h⟩
  | c :: w, out, s, h, hw => by
      obtain ⟨s₁, h₁, hs₁⟩ := h.copy (hw c List.mem_cons_self).1 (hw c List.mem_cons_self).2
      obtain ⟨s₂, h₂, hs₂⟩ := hs₁.field fun c hc => hw c (List.mem_cons_of_mem _ hc)
      exact ⟨s₂, h₁.trans h₂, by simpa using hs₂⟩

theorem At.slash (h : At s .sep out gap ('/' :: rest)) :
    ∃ s', Reaches s s' ∧ At s' .seenSep (out ++ ['/']) gap rest := by
  have hread : s.outpos ≤ s.pos := by
    have := h.pos
    omega
  obtain ⟨s', hemit, hs', -⟩ := ((h.setRead s.pos).advance).emit hread '/'
  refine ⟨s'.goto .seenSep, h.step ?_, hs'.goto _⟩
  rw [act_sep (h.setRead s.pos).phase, hemit]
  rfl

/-- The field in front of the last separator of `out`, taken away. -/
def back (out : List Char) : List Char := out.take (walkBack out (out.length - 1))

theorem walkBack_le (path : List Char) : ∀ n, walkBack path n ≤ n
  | 0 => Nat.le_refl 0
  | n + 1 => by
      unfold walkBack
      split_ifs
      · exact Nat.le_refl _
      · exact Nat.le_succ_of_le (walkBack_le path n)

/-- Only what has been kept is looked at. -/
theorem walkBack_append (out rest : List Char) :
    ∀ n, n ≤ out.length → walkBack (out ++ rest) n = walkBack out n
  | 0, _ => rfl
  | n + 1, h => by
      simp only [walkBack, List.getElem?_append_left (Nat.lt_of_succ_le h),
        walkBack_append out rest n (Nat.le_of_succ_le h)]

theorem length_back (out : List Char) : (back out).length = walkBack out (out.length - 1) := by
  have := walkBack_le out (out.length - 1)
  rw [back, List.length_take]
  omega

/-- The position that the automaton goes back to. -/
theorem At.outpos_back (h : At s phase out gap rest) :
    (if 0 < s.outpos then walkBack s.path (s.outpos - 1) else s.outpos) = (back out).length := by
  obtain ⟨free, -, hpath⟩ := h.path
  rw [length_back, hpath, h.outpos, List.append_assoc, walkBack_append _ _ _ (by omega)]
  split_ifs with hout
  · rfl
  · rw [Nat.eq_zero_of_not_pos hout]
    rfl

/-- The trailing slash taken away. -/
def trim (out : List Char) : List Char :=
  if out.getLast? = some '/' then out.dropLast else out

/-- The automaton has read a component and the `t` behind it, and has kept `out`: it is
at the start of the next component, or at the end, up to a trailing slash. -/
def Arrives (s : State) (t : Char) (rest out : List Char) : Prop :=
  (t = '/' ∧ ∃ s' gap, Reaches s s' ∧ At s' .seenSep out gap rest) ∨
    (t = nul ∧ ∃ s' out', Reaches s s' ∧ Ended s' out' ∧ trim out' = trim out)

theorem Arrives.of_reaches {t : Char} (hr : Reaches s s') (h : Arrives s' t rest out) :
    Arrives s t rest out := by
  rcases h with ⟨rfl, s₁, gap, h₁, hs₁⟩ | ⟨rfl, s₁, out', h₁, hs₁, ho⟩
  · exact .inl ⟨rfl, s₁, gap, hr.trans h₁, hs₁⟩
  · exact .inr ⟨rfl, s₁, out', hr.trans h₁, hs₁, ho⟩

theorem nul_ne_slash : nul ≠ '/' := by decide

theorem nul_ne_dot : nul ≠ '.' := by decide

theorem trim_concat (out : List Char) : trim (out ++ ['/']) = out := by
  simp [trim]

theorem trim_append (out : List Char) (hne : w ≠ []) (hw : '/' ∉ w) : trim (out ++ w) = out ++ w := by
  have hlast : (out ++ w).getLast? = some (w.getLast hne) := by
    rw [List.getLast?_append_of_ne_nil _ hne, List.getLast?_eq_getLast_of_ne_nil hne]
  have hne' : w.getLast hne ≠ '/' := fun h => hw (h ▸ List.getLast_mem hne)
  simp [trim, hlast, hne']

section Component

variable {t : Char} (ht : t = '/' ∨ t = nul)
include ht

theorem At.arrives_empty (h : At s .seenSep out gap (t :: rest)) : Arrives s t rest out := by
  rcases ht with rfl | rfl
  · obtain ⟨s', hr, hs'⟩ := h.skip .seenSep fun s hs => by
      cases s
      simp_all [act, State.goto, State.advance]
    exact .inl ⟨rfl, s', _, hr, hs'⟩
  · obtain ⟨s', hr, hs'⟩ := h.halt fun s hs => by
      simp [act, hs, nul_ne_slash]
    exact .inr ⟨rfl, s', out, hr, hs', rfl⟩

theorem At.arrives_dot (h : At s .seenDot out gap (t :: rest)) : Arrives s t rest out := by
  rcases ht with rfl | rfl
  · obtain ⟨s', hr, hs'⟩ := h.skip .seenSep fun s hs => by
      simp [act, hs]
    exact .inl ⟨rfl, s', _, hr, hs'⟩
  · obtain ⟨s', hr, hs'⟩ := h.halt fun s hs => by
      simp [act, hs, nul_ne_slash, nul_ne_dot]
    exact .inr ⟨rfl, s', out, hr, hs', rfl⟩

theorem act_seenDotdot (h : s.phase = .seenDotdot) :
    act t s = some
      (let s := { s with outpos := if 0 < s.outpos then walkBack s.path (s.outpos - 1) else s.outpos }
      if t = nul then (s.advance.goto .seenSep).stop else s.advance.goto .seenSep) := by
  simp only [act, h, if_pos ht]
  split_ifs <;> rfl

/-- **Behind two dots** the field before is given up. -/
theorem At.arrives_dotdot (h : At s .seenDotdot out gap (t :: rest)) :
    Arrives s t rest (back out) := by
  have hback := (h.setRead s.pos).outpos_back
  have hstep := h.step (act_seenDotdot ht (h.setRead s.pos).phase)
  simp only at hback
  simp only [hback] at hstep
  obtain ⟨free, hfree, hpath⟩ := h.path
  have hprefix : back out <+: out := List.take_prefix _ _
  have hle := hprefix.length_le
  have hout := List.prefix_iff_eq_append.1 hprefix
  rcases ht with rfl | rfl
  · rw [if_neg (by decide)] at hstep
    refine .inl ⟨rfl, _, out.length - (back out).length + gap + 1, hstep, rfl, h.going, rfl, ?_,
      ⟨out.drop (back out).length ++ free ++ ['/'], ?_, ?_⟩, h.writes⟩
    · have := h.pos
      have := h.outpos
      simp only [State.advance, State.goto]
      omega
    · simp [hfree, Nat.add_assoc]
    · simp only [State.advance, State.goto, hpath]
      conv_lhs => rw [← hout]
      simp
  · rw [if_pos rfl] at hstep
    refine .inr ⟨rfl, _, back out, hstep, ⟨rfl, rfl, ⟨out.drop (back out).length ++ free ++ nul :: rest,
      by simp, ?_⟩, ?_, h.writes⟩, rfl⟩
    · simp only [State.advance, State.goto, State.stop, hpath]
      conv_lhs => rw [← hout]
      simp
    · have := h.pos
      have := h.outpos
      simp only [State.advance, State.goto, State.stop]
      omega

/-- Behind a field that has been copied. -/
theorem At.arrives_field (h : At s .inField (out ++ w) gap (t :: rest)) (hne : w ≠ [])
    (hw : '/' ∉ w) : Arrives s t rest (out ++ w ++ ['/']) := by
  rcases ht with rfl | rfl
  · obtain ⟨s₁, h₁, hs₁⟩ := h.move .sep fun s hs => by
      simp [act, hs]
    obtain ⟨s₂, h₂, hs₂⟩ := hs₁.slash
    exact .inl ⟨rfl, s₂, _, h₁.trans h₂, hs₂⟩
  · obtain ⟨s', hr, hs'⟩ := h.halt fun s hs => by
      simp [act, hs, nul_ne_slash]
    exact .inr ⟨rfl, s', _, hr, hs', by rw [trim_concat, trim_append out hne hw]⟩

/-- What is kept of `out` and a component behind it. -/
def keep (out w : List Char) : List Char :=
  if w = [] ∨ w = ['.'] then out
  else if w = ['.', '.'] then back out
  else out ++ w ++ ['/']

omit ht in
/-- A field that starts with one dot. -/
theorem At.restore_dot (h : At s .seenDot out (gap + 1) (c :: rest)) (hdot : c ≠ '.')
    (hslash : c ≠ '/') (hnul : c ≠ nul) :
    ∃ s', Reaches s s' ∧ At s' .inField (out ++ ['.']) gap (c :: rest) := by
  have hread : s.outpos ≤ s.pos := by
    have := h.pos
    omega
  obtain ⟨s', hemit, hs', -⟩ := (h.setRead s.pos).emit hread '.'
  refine ⟨s'.goto .inField, h.step ?_, hs'.goto _⟩
  have hact : ∀ s : State, s.phase = .seenDot →
      act c s = (s.emit '.').map (State.goto .inField) := fun s hs => by
    simp only [act, hs, if_neg hdot, if_neg hslash, if_neg hnul]
  rw [hact _ (h.setRead s.pos).phase, hemit]
  rfl

omit ht in
/-- A field that starts with two dots. -/
theorem At.restore_dots (h : At s .seenDotdot out (gap + 2) (c :: rest))
    (hslash : c ≠ '/') (hnul : c ≠ nul) :
    ∃ s', Reaches s s' ∧ At s' .inField (out ++ ['.'] ++ ['.']) gap (c :: rest) := by
  have hpos := h.pos
  have hout := h.outpos
  have hread : s.outpos ≤ s.pos := by omega
  obtain ⟨s₁, hemit₁, hs₁, hr₁⟩ := (h.setRead s.pos).emit hread '.'
  have hread₁ : s₁.outpos ≤ s₁.read := by
    rw [hs₁.outpos, hr₁, List.length_append, List.length_singleton]
    simp only
    omega
  obtain ⟨s₂, hemit₂, hs₂, -⟩ := hs₁.emit hread₁ '.'
  refine ⟨s₂.goto .inField, h.step ?_, hs₂.goto _⟩
  have hact : ∀ s : State, s.phase = .seenDotdot → act c s =
      (s.emit '.').bind fun s => (s.emit '.').map (State.goto .inField) := fun s hs => by
    simp only [act, hs, hslash, hnul, or_self, if_false, Option.bind_eq_bind]
  rw [hact _ (h.setRead s.pos).phase, hemit₁, Option.bind_some, hemit₂]
  rfl

/-- A component that starts with a dot. -/
theorem At.arrives_dots (h : At s .dot out gap ('.' :: w ++ t :: rest))
    (hw : ∀ c ∈ w, c ≠ '/' ∧ c ≠ nul) : Arrives s t rest (keep out ('.' :: w)) := by
  obtain ⟨s₁, h₁, hs₁⟩ := h.skip .seenDot fun s hs => by
    simp [act, hs]
  refine .of_reaches h₁ ?_
  cases w with
  | nil => exact hs₁.arrives_dot ht
  | cons c w =>
    obtain ⟨hslash, hnul⟩ := hw c List.mem_cons_self
    have hclean : ∀ d ∈ '.' :: c :: w, d ≠ '/' := by
      rintro d (_ | ⟨_, hd⟩)
      · decide
      · exact (hw d hd).1
    by_cases hdot : c = '.'
    · subst hdot
      obtain ⟨s₂, h₂, hs₂⟩ := hs₁.move .dotdot fun s hs => by
        simp [act, hs]
      obtain ⟨s₃, h₃, hs₃⟩ := hs₂.skip .seenDotdot fun s hs => by
        simp [act, hs]
      refine .of_reaches (h₂.trans h₃) ?_
      cases w with
      | nil => exact hs₃.arrives_dotdot ht
      | cons d w =>
        have hd := hw d (by simp)
        obtain ⟨s₄, h₄, hs₄⟩ := hs₃.restore_dots hd.1 hd.2
        obtain ⟨s₅, h₅, hs₅⟩ := hs₄.field (w := d :: w) fun c hc =>
          hw c (List.mem_cons_of_mem _ hc)
        have hkeep : keep out ('.' :: '.' :: d :: w) = out ++ '.' :: '.' :: d :: w ++ ['/'] := by
          simp [keep]
        have hend : At s₅ .inField (out ++ '.' :: '.' :: d :: w) gap (t :: rest) := by
          simpa using hs₅
        rw [hkeep]
        exact .of_reaches (h₄.trans h₅)
          (hend.arrives_field ht (List.cons_ne_nil _ _) fun h => hclean _ h rfl)
    · obtain ⟨s₂, h₂, hs₂⟩ := hs₁.restore_dot hdot hslash hnul
      obtain ⟨s₃, h₃, hs₃⟩ := hs₂.field (w := c :: w) hw
      have hkeep : keep out ('.' :: c :: w) = out ++ '.' :: c :: w ++ ['/'] := by
        simp [keep, hdot]
      have hend : At s₃ .inField (out ++ '.' :: c :: w) gap (t :: rest) := by
        simpa using hs₃
      rw [hkeep]
      exact .of_reaches (h₂.trans h₃)
        (hend.arrives_field ht (List.cons_ne_nil _ _) fun h => hclean _ h rfl)

/-- **A component is read.** -/
theorem At.arrives (h : At s phase out gap (w ++ t :: rest))
    (hphase : phase = .seenSep ∨ phase = .initial ∧ (w = [] → t = nul))
    (hw : ∀ c ∈ w, c ≠ '/' ∧ c ≠ nul) : Arrives s t rest (keep out w) := by
  cases w with
  | nil =>
    rcases hphase with rfl | ⟨rfl, hnul⟩
    · exact h.arrives_empty ht
    · obtain rfl := hnul rfl
      obtain ⟨s₁, h₁, hs₁⟩ := h.move .fieldStart fun s hs => by
        simp [act, hs, nul_ne_slash, nul_ne_dot]
      obtain ⟨s₂, h₂, hs₂⟩ := hs₁.halt fun s hs => by
        simp [act, hs, nul_ne_dot]
      exact .inr ⟨rfl, s₂, out, h₁.trans h₂, hs₂, rfl⟩
  | cons c w =>
    obtain ⟨hslash, hnul⟩ := hw c List.mem_cons_self
    by_cases hdot : c = '.'
    · subst hdot
      obtain ⟨s₁, h₁, hs₁⟩ : ∃ s₁, Reaches s s₁ ∧ At s₁ .dot out gap ('.' :: w ++ t :: rest) := by
        rcases hphase with rfl | ⟨rfl, -⟩
        · obtain ⟨s₁, h₁, hs₁⟩ := h.move .fieldStart fun s hs => by
            simp [act, hs, nul_ne_dot.symm]
          obtain ⟨s₂, h₂, hs₂⟩ := hs₁.move .dot fun s hs => by
            simp [act, hs]
          exact ⟨s₂, h₁.trans h₂, hs₂⟩
        · exact h.move .dot fun s hs => by simp [act, hs]
      exact .of_reaches h₁ (hs₁.arrives_dots ht fun c hc => hw c (List.mem_cons_of_mem _ hc))
    · obtain ⟨s₁, h₁, hs₁⟩ : ∃ s₁, Reaches s s₁ ∧ At s₁ .fieldStart out gap (c :: w ++ t :: rest) :=
        h.move .fieldStart fun s hs => by
          rcases hphase with rfl | ⟨rfl, -⟩ <;> simp [act, hs, hslash, hdot, hnul]
      obtain ⟨s₂, h₂, hs₂⟩ := hs₁.move .inField fun s hs => by
        simp [act, hs, hdot, hnul]
      obtain ⟨s₃, h₃, hs₃⟩ := hs₂.field hw
      have hkeep : keep out (c :: w) = out ++ c :: w ++ ['/'] := by
        simp [keep, hdot]
      rw [hkeep]
      exact .of_reaches (h₁.trans (h₂.trans h₃))
        (hs₃.arrives_field ht (List.cons_ne_nil _ _) fun h => (hw _ h).1 rfl)

end Component

end Simulation

/-! ### The names that are kept -/

section Names

variable {rooted : Bool} {names : List (List Char)} {w : List Char}

/-- A name of a normalised path. -/
def IsName (w : List Char) : Prop :=
  w ≠ [] ∧ w ≠ ['.'] ∧ w ≠ ['.', '.'] ∧ ∀ c ∈ w, c ≠ '/' ∧ c ≠ nul

/-- A path as the automaton has it at the start of a component. -/
def opened (kept : Bool × List (List Char)) : List Char :=
  (if kept.1 then ['/'] else []) ++ kept.2.flatMap (· ++ ['/'])

theorem opened_concat (rooted : Bool) (names : List (List Char)) (w : List Char) :
    opened (rooted, names ++ [w]) = opened (rooted, names) ++ w ++ ['/'] := by
  simp [opened]

/-- It ends with a separator, if it is not empty. -/
theorem opened_getLast (kept : Bool × List (List Char)) :
    opened kept = [] ∨ (opened kept).getLast? = some '/' := by
  obtain ⟨rooted, names⟩ := kept
  rcases List.eq_nil_or_concat' names with rfl | ⟨names, w, rfl⟩
  · cases rooted
    · exact .inl rfl
    · exact .inr rfl
  · right
    simp [opened_concat]

/-- Backwards over a name. -/
theorem walkBack_name {out : List Char} (hout : out = [] ∨ out.getLast? = some '/') :
    ∀ {w : List Char}, '/' ∉ w → walkBack (out ++ w) (out ++ w).length = out.length := by
  intro w hw
  induction w using List.reverseRecOn with
  | nil =>
    rw [List.append_nil]
    rcases hout with rfl | hlast
    · rfl
    · rw [List.getLast?_eq_getElem?] at hlast
      have hpos : 0 < out.length := by
        by_contra hzero
        rw [List.getElem?_eq_none (by omega)] at hlast
        cases hlast
      obtain ⟨n, hn⟩ := Nat.exists_eq_add_of_lt hpos
      rw [Nat.zero_add] at hn
      rw [hn, Nat.add_sub_cancel] at hlast
      rw [hn, walkBack, if_pos hlast]
  | append_singleton w c ih =>
    have hc : c ≠ '/' := fun h => hw (by simp [h])
    have hlen : (out ++ (w ++ [c])).length = (out ++ w).length + 1 := by
      simp [Nat.add_assoc]
    rw [hlen, walkBack, ← List.append_assoc, List.getElem?_concat_length, if_neg (by simpa using hc),
      walkBack_append _ _ _ (Nat.le_refl _), ih fun h => hw (List.mem_append_left _ h)]

/-- **The automaton keeps the names of a stack.** -/
theorem keep_opened (hnames : ∀ n ∈ names, IsName n) (w : List Char) :
    keep (opened (rooted, names)) w = opened (pushOn (rooted, names) w) := by
  by_cases hempty : w = [] ∨ w = ['.']
  · have hdots : w ≠ ['.', '.'] := by
      rcases hempty with rfl | rfl <;> decide
    simp only [keep, pushOn, push, if_pos hempty, hdots, decide_false, Bool.false_and,
      Bool.not_false, Bool.and_true]
  by_cases hdots : w = ['.', '.']
  · subst hdots
    simp only [keep, pushOn, push, if_neg hempty, if_true, decide_true, Bool.true_and]
    rcases List.eq_nil_or_concat' names with rfl | ⟨names, n, rfl⟩
    · cases rooted <;> rfl
    · have hn := hnames n (by simp)
      have hwalk := walkBack_name (opened_getLast (rooted, names)) (w := n)
        fun h => (hn.2.2.2 _ h).1 rfl
      have hlen : (opened (rooted, names ++ [n])).length - 1 =
          (opened (rooted, names) ++ n).length := by
        simp [opened_concat]
      have hfull : (names ++ [n]).isEmpty = false := by simp
      rw [List.dropLast_concat, back, hlen, opened_concat, walkBack_append _ _ _ (Nat.le_refl _),
        hwalk, hfull]
      simp
  · simp only [keep, pushOn, push, if_neg hempty, hdots, if_false, decide_false,
      Bool.false_and, Bool.not_false, Bool.and_true, opened_concat]

theorem push_isName (hnames : ∀ n ∈ names, IsName n) (hw : ∀ c ∈ w, c ≠ '/' ∧ c ≠ nul) :
    ∀ n ∈ push names w, IsName n := by
  unfold push
  split_ifs with hempty hdots
  · exact hnames
  · exact fun n hn => hnames n (List.mem_of_mem_dropLast hn)
  · rintro n hn
    rcases List.mem_append.1 hn with hn | hn
    · exact hnames n hn
    · rw [List.mem_singleton.1 hn]
      rw [not_or] at hempty
      exact ⟨hempty.1, hempty.2, hdots, hw⟩

theorem join_concat (rooted : Bool) (hne : names ≠ []) :
    join rooted names ++ ['/'] = opened (rooted, names) := by
  have hflat : ∀ names : List (List Char), names ≠ [] →
      ['/'].intercalate names ++ ['/'] = names.flatMap (· ++ ['/']) := by
    intro names
    induction names with
    | nil => exact fun h => absurd rfl h
    | cons w names ih =>
      intro _
      cases names with
      | nil => simp
      | cons v names =>
        have := ih (List.cons_ne_nil _ _)
        rw [List.intercalate_cons_cons, List.flatMap_cons, ← this]
        simp
  simp only [join, opened, List.append_assoc, hflat names hne]

theorem trim_opened (rooted : Bool) (names : List (List Char)) :
    trim (opened (rooted, names)) = render rooted names := by
  by_cases hne : names = []
  · subst hne
    cases rooted <;> rfl
  · rw [← join_concat rooted hne, trim_concat, render, if_neg hne]

/-- Whether a leading slash is left. -/
theorem foldl_pushOn (rooted : Bool) (ws : List (List Char)) :
    (ws.foldl pushOn (rooted, [])).2 = reduce ws ∧
      ((ws.foldl pushOn (rooted, [])).1 = true → rooted = true) ∧
      (rooted = true → ¬AboveRoot ws → (ws.foldl pushOn (rooted, [])).1 = true) := by
  induction ws using List.reverseRecOn with
  | nil => exact ⟨rfl, id, fun h _ => h⟩
  | append_singleton ws w ih =>
    obtain ⟨hnames, hrooted, habove⟩ := ih
    rw [List.foldl_concat]
    refine ⟨?_, fun h => hrooted (Bool.and_eq_true_iff.1 h).1, fun h hw => ?_⟩
    · simp only [pushOn, hnames, reduce, List.foldl_concat]
    · have hbefore : ¬AboveRoot ws := fun ⟨before, hle, hnone⟩ =>
        hw ⟨before, hle.trans (List.prefix_append _ _), hnone⟩
      have hw' : ¬(w = ['.', '.'] ∧ reduce ws = []) := by
        rintro ⟨rfl, hnone⟩
        exact hw ⟨ws, List.prefix_rfl, hnone⟩
      simp only [pushOn, habove h hbefore, hnames, Bool.true_and, Bool.not_eq_true',
        Bool.and_eq_false_imp, decide_eq_true_eq, List.isEmpty_eq_false_iff]
      exact fun hdots hnone => hw' ⟨hdots, hnone⟩

theorem foldl_isName {ws : List (List Char)} (rooted : Bool)
    (hw : ∀ w ∈ ws, ∀ c ∈ w, c ≠ '/' ∧ c ≠ nul) :
    ∀ n ∈ (ws.foldl pushOn (rooted, [])).2, IsName n := by
  induction ws using List.reverseRecOn with
  | nil => simp
  | append_singleton ws w ih =>
    rw [List.foldl_concat]
    exact push_isName (ih fun v hv => hw v (List.mem_append_left _ hv)) (hw w (by simp))

end Names

/-! ### The whole function -/

section Run

variable {s s' : State} {phase : Phase} {out rest p : List Char} {gap : ℕ}

/-- **All components are read.** -/
theorem At.arrives_all : ∀ (ws : List (List Char)) (kept : Bool × List (List Char))
    {s : State} {phase : Phase} {gap : ℕ}, ws ≠ [] → (∀ w ∈ ws, ∀ c ∈ w, c ≠ '/' ∧ c ≠ nul) →
    (∀ n ∈ kept.2, IsName n) → phase = .seenSep ∨ phase = .initial ∧ (ws.head? = some [] → ws = [[]]) →
    At s phase (opened kept) gap (['/'].intercalate ws ++ nul :: rest) →
      ∃ s' out', Reaches s s' ∧ Ended s' out' ∧ trim out' = trim (opened (ws.foldl pushOn kept))
  | [], _, _, _, _, hne, _, _, _, _ => absurd rfl hne
  | [w], (rooted, names), s, phase, gap, _, hw, hnames, hphase, h => by
      have hclean := hw w List.mem_cons_self
      have harr := (show At s phase (opened (rooted, names)) gap (w ++ nul :: rest) by
        simpa using h).arrives (.inr rfl) (hphase.imp_right fun hp => ⟨hp.1, fun _ => rfl⟩) hclean
      rw [keep_opened hnames] at harr
      rcases harr with ⟨hslash, -⟩ | ⟨-, s', out', hr, hs', ho⟩
      · exact absurd hslash nul_ne_slash
      · exact ⟨s', out', hr, hs', ho⟩
  | w :: v :: ws, (rooted, names), s, phase, gap, _, hw, hnames, hphase, h => by
      have hclean := hw w List.mem_cons_self
      have hphase' : phase = .seenSep ∨ phase = .initial ∧ (w = [] → '/' = nul) := by
        refine hphase.imp_right fun hp => ⟨hp.1, ?_⟩
        rintro rfl
        cases hp.2 rfl
      have harr := (show At s phase (opened (rooted, names)) gap
          (w ++ '/' :: (['/'].intercalate (v :: ws) ++ nul :: rest)) by
        simpa [List.intercalate_cons_cons] using h).arrives (.inl rfl) hphase' hclean
      rw [keep_opened hnames] at harr
      rcases harr with ⟨-, s₁, gap', h₁, hs₁⟩ | ⟨hslash, -⟩
      · obtain ⟨s₂, out', h₂, hs₂, ho⟩ := hs₁.arrives_all (v :: ws) _ (List.cons_ne_nil _ _)
          (fun u hu => hw u (List.mem_cons_of_mem _ hu)) (push_isName hnames hclean) (.inl rfl)
        exact ⟨s₂, out', h₁.trans h₂, hs₂, ho⟩
      · exact absurd hslash.symm nul_ne_slash

theorem exists_loop (hr : Reaches s s') (hdone : s'.done = true) : ∃ n, loop n s = some s' := by
  induction hr using Relation.ReflTransGen.head_induction_on with
  | refl => exact ⟨1, by simp [loop, hdone]⟩
  | head hstep _ ih =>
    obtain ⟨n, hn⟩ := ih
    exact ⟨n + 1, by simp [loop, hstep.1, hstep.2, hn]⟩

/-- A trailing slash, by its position. -/
theorem Ended.slash_iff (h : Ended s out) :
    (0 < s.outpos ∧ s.path[s.outpos - 1]? = some '/') ↔ out.getLast? = some '/' := by
  obtain ⟨free, -, hpath⟩ := h.path
  rw [List.getLast?_eq_getElem?, h.outpos, hpath]
  constructor
  · rintro ⟨hpos, hlast⟩
    rwa [List.getElem?_append_left (by omega)] at hlast
  · intro hlast
    have hlt := (List.getElem?_eq_some_iff.1 hlast).1
    exact ⟨by omega, by rwa [List.getElem?_append_left hlt]⟩

theorem Ended.trimmed (h : Ended s out) :
    ∃ s', finish s = s'.emit nul ∧ Ended s' (trim out) := by
  obtain ⟨free, hfree, hpath⟩ := h.path
  by_cases hlast : out.getLast? = some '/'
  · have hout := List.dropLast_append_getLast? _ hlast
    have hlen : s.outpos - 1 = out.dropLast.length := by
      rw [h.outpos, List.length_dropLast]
    refine ⟨{ s with outpos := s.outpos - 1 }, ?_, h.done, ?_, ⟨'/' :: free, by simp, ?_⟩,
      (Nat.sub_le _ _).trans h.read, h.writes⟩
    · rw [Normalize.finish, if_pos (h.slash_iff.2 hlast)]
    · rw [trim, if_pos hlast, ← hlen]
    · rw [trim, if_pos hlast, hpath]
      conv_lhs => rw [← hout]
      simp
  · refine ⟨s, ?_, ?_⟩
    · rw [Normalize.finish, if_neg (mt h.slash_iff.1 hlast)]
    · rwa [trim, if_neg hlast]

/-- **Behind the loop**, the end of the string is written where it belongs. -/
theorem Ended.finish (h : Ended s out) (hnul : nul ∉ trim out) :
    ∃ s', finish s = some s' ∧ s'.result = trim out ∧ s'.NeverAhead := by
  obtain ⟨s₁, hfinish, h₁⟩ := h.trimmed
  obtain ⟨free, hfree, hpath⟩ := h₁.path
  obtain ⟨f, free, rfl⟩ := List.exists_cons_of_ne_nil hfree
  have hlt : s₁.outpos < s₁.path.length := by
    rw [hpath, h₁.outpos, List.length_append, List.length_cons]
    omega
  refine ⟨_, hfinish.trans (if_pos hlt), ?_, ?_⟩
  · have hset : s₁.path.set s₁.outpos nul = trim out ++ nul :: free := by
      rw [hpath, h₁.outpos, List.set_append_right _ _ (Nat.le_refl _), Nat.sub_self]
      rfl
    have hclean : ∀ c ∈ trim out, decide (c ≠ nul) = true := fun c hc =>
      decide_eq_true fun h => hnul (h ▸ hc)
    simp only [State.result, hset, List.takeWhile_append_of_pos hclean]
    simp
  · intro w hw
    rcases List.mem_append.1 hw with hw | hw
    · exact h₁.writes w hw
    · rw [List.mem_singleton.1 hw]
      exact h₁.read

theorem nul_notMem_trim {kept : Bool × List (List Char)} (hnames : ∀ n ∈ kept.2, IsName n) :
    nul ∉ trim (opened kept) := by
  have hopened : nul ∉ opened kept := by
    intro h
    rcases List.mem_append.1 h with h | h
    · split_ifs at h
      · exact absurd (List.mem_singleton.1 h) nul_ne_slash
      · cases h
    · obtain ⟨n, hn, h⟩ := List.mem_flatMap.1 h
      rcases List.mem_append.1 h with h | h
      · exact ((hnames n hn).2.2.2 _ h).2 rfl
      · exact absurd (List.mem_singleton.1 h) nul_ne_slash
  unfold trim
  split_ifs
  · exact fun h => hopened (List.mem_of_mem_dropLast h)
  · exact hopened

theorem components_cons (c : Char) (p : List Char) :
    components (c :: p) =
      if c = '/' then [] :: components p else (components p).modifyHead (List.cons c) := by
  simp only [components, List.splitOn_cons_eq_if_modifyHead, beq_iff_eq]

theorem mem_components : ∀ {p w : List Char}, w ∈ components p → ∀ c ∈ w, c ≠ '/' ∧ c ∈ p := by
  intro p
  induction p with
  | nil =>
    intro w hw c hc
    rw [components, List.splitOn_nil, List.mem_singleton] at hw
    subst hw
    cases hc
  | cons d p ih =>
    intro w hw c hc
    rw [components_cons] at hw
    split_ifs at hw with hd
    · rcases List.mem_cons.1 hw with rfl | hw
      · cases hc
      · exact (ih hw c hc).imp_right (List.mem_cons_of_mem _)
    · obtain ⟨v, ws, hws⟩ := List.exists_cons_of_ne_nil (List.splitOn_ne_nil '/' p)
      rw [components, hws, List.modifyHead_cons] at hw
      have hrest : ∀ u ∈ v :: ws, ∀ c ∈ u, c ≠ '/' ∧ c ∈ d :: p := fun u hu c hc =>
        (ih (by rwa [components, hws]) c hc).imp_right (List.mem_cons_of_mem _)
      rcases List.mem_cons.1 hw with rfl | hw
      · rcases List.mem_cons.1 hc with rfl | hc
        · exact ⟨hd, List.mem_cons_self⟩
        · exact hrest v List.mem_cons_self c hc
      · exact hrest w (List.mem_cons_of_mem _ hw) c hc

theorem components_clean (hp : nul ∉ p) : ∀ w ∈ components p, ∀ c ∈ w, c ≠ '/' ∧ c ≠ nul :=
  fun _ hw c hc => (mem_components hw c hc).imp_right fun hmem h => hp (h ▸ hmem)

/-- Only a leading slash leaves an empty component in front. -/
theorem components_head (hroot : p.head? ≠ some '/') (h : (components p).head? = some []) :
    components p = [[]] := by
  cases p with
  | nil => rfl
  | cons c p =>
    have hc : c ≠ '/' := fun hc => hroot (by simp [hc])
    obtain ⟨v, ws, hws⟩ := List.exists_cons_of_ne_nil (List.splitOn_ne_nil '/' p)
    rw [components_cons, if_neg hc, components, hws] at h
    cases h

/-- The components behind the leading slash, or all of them. -/
theorem loop_components (hp : nul ∉ p) (rest : List Char) :
    ∃ s out, Reaches (start (p ++ nul :: rest)) s ∧ Ended s out ∧ trim out = normalized p ∧
      nul ∉ normalized p := by
  have hstart : ∀ q : List Char, At (start q) .initial (opened (false, [])) 0 q := fun q =>
    ⟨rfl, rfl, rfl, rfl, ⟨[], rfl, rfl⟩, fun w hw => by cases hw⟩
  have hjoin : ∀ q : List Char, ['/'].intercalate (components q) = q := fun q =>
    List.intercalate_splitOn '/'
  by_cases hroot : p.head? = some '/'
  · obtain ⟨c, p, rfl⟩ := List.exists_cons_of_ne_nil (show p ≠ [] by rintro rfl; cases hroot)
    obtain rfl : c = '/' := by simpa using hroot
    have hp' : nul ∉ p := fun h => hp (List.mem_cons_of_mem _ h)
    obtain ⟨s₁, h₁, hs₁⟩ := (hstart ('/' :: p ++ nul :: rest)).move .sep fun s hs => by
      simp [act, hs]
    obtain ⟨s₂, h₂, hs₂⟩ := hs₁.slash
    obtain ⟨s, out, hr, hs, ho⟩ := At.arrives_all (components p)
      (true, []) (List.splitOn_ne_nil _ _) (components_clean hp') (by simp) (.inl rfl)
      (show At s₂ _ _ _ (['/'].intercalate (components p) ++ nul :: rest) by rw [hjoin]; exact hs₂)
    have hnorm : normalized ('/' :: p) =
        trim (opened ((components p).foldl pushOn (true, []))) := by
      rw [normalized, trim_opened, decide_eq_true hroot, components_cons, if_pos rfl]
      rfl
    rw [hnorm]
    exact ⟨s, out, h₁.trans (h₂.trans hr), hs, ho,
      nul_notMem_trim (foldl_isName true (components_clean hp'))⟩
  · obtain ⟨s, out, hr, hs, ho⟩ := At.arrives_all (components p)
      (false, []) (List.splitOn_ne_nil _ _) (components_clean hp) (by simp)
      (.inr ⟨rfl, components_head hroot⟩)
      (show At (start (p ++ nul :: rest)) _ _ 0 (['/'].intercalate (components p) ++ nul :: rest) by
        rw [hjoin]
        exact hstart _)
    have hnorm : normalized p = trim (opened ((components p).foldl pushOn (false, []))) := by
      rw [normalized, trim_opened, decide_eq_false hroot]
    rw [hnorm]
    exact ⟨s, out, hr, hs, ho, nul_notMem_trim (foldl_isName false (components_clean hp))⟩

/-- **`fs_normalize_path` terminates**, and what it makes of a string is its names. -/
theorem ends_normalized (hp : nul ∉ p) (rest : List Char) :
    ∃ s, Ends (p ++ nul :: rest) s ∧ s.NeverAhead ∧ s.result = normalized p := by
  obtain ⟨s, out, hr, hs, ho, hnul⟩ := loop_components hp rest
  obtain ⟨n, hn⟩ := exists_loop hr hs.done
  obtain ⟨s', hfinish, hresult, hahead⟩ := hs.finish (ho ▸ hnul)
  exact ⟨s', ⟨n, by rw [fsNormalizePath, hn, Option.bind_some, hfinish]⟩, hahead, hresult.trans ho⟩

/-- The names of a normalised path are its components. -/
theorem components_join {names : List (List Char)} (hnames : ∀ n ∈ names, IsName n)
    (hne : names ≠ []) : components (['/'].intercalate names) = names :=
  List.splitOn_intercalate '/' (fun n hn h => ((hnames n hn).2.2.2 _ h).1 rfl) hne

theorem foldl_names {names : List (List Char)} (rooted : Bool) (hnames : ∀ n ∈ names, IsName n) :
    names.foldl pushOn (rooted, []) = (rooted, names) := by
  induction names using List.reverseRecOn with
  | nil => rfl
  | append_singleton names n ih =>
    obtain ⟨hempty, hdot, hdots, -⟩ := hnames n (by simp)
    rw [List.foldl_concat, ih fun m hm => hnames m (List.mem_append_left _ hm)]
    simp [pushOn, push, hempty, hdot, hdots]

/-- **A normalised path stays as it is.** -/
theorem normalized_render {names : List (List Char)} (rooted : Bool)
    (hnames : ∀ n ∈ names, IsName n) :
    normalized (render rooted names) = render rooted names := by
  by_cases hne : names = []
  · subst hne
    rfl
  have hfold := foldl_names rooted hnames
  have hcomp := components_join hnames hne
  simp only [render, if_neg hne, join]
  cases rooted
  · have hroot : (['/'].intercalate names).head? ≠ some '/' := by
      obtain ⟨n, names, rfl⟩ := List.exists_cons_of_ne_nil hne
      obtain ⟨hempty, -, -, hclean⟩ := hnames n List.mem_cons_self
      obtain ⟨c, n, rfl⟩ := List.exists_cons_of_ne_nil hempty
      have hc := (hclean c List.mem_cons_self).1
      cases names <;> simpa [List.intercalate_cons_cons] using hc
    simp only [Bool.false_eq_true, if_false, List.nil_append, normalized, decide_eq_false hroot,
      hcomp, hfold, render, if_neg hne, join]
  · have hcons : components ('/' :: ['/'].intercalate names) = [] :: names := by
      rw [components_cons, if_pos rfl, hcomp]
    have hpush : pushOn (true, []) [] = (true, []) := rfl
    simp only [if_true, List.singleton_append, normalized, List.head?_cons, decide_true, hcons,
      List.foldl_cons, hpush, hfold, render, if_neg hne, join]

theorem normalized_idem (hp : nul ∉ p) : normalized (normalized p) = normalized p :=
  normalized_render _ (foldl_isName _ (components_clean hp))

theorem loop_succ : ∀ {n : ℕ} {s s' : State}, loop n s = some s' → loop (n + 1) s = some s'
  | n + 1, s, s', h => by
      unfold loop at h ⊢
      split_ifs at h ⊢ with hdone
      · exact h
      · obtain ⟨s₁, h₁, h₂⟩ := Option.bind_eq_some_iff.1 h
        exact Option.bind_eq_some_iff.2 ⟨s₁, h₁, loop_succ h₂⟩

theorem loop_le {n m : ℕ} (h : loop n s = some s') (hle : n ≤ m) : loop m s = some s' := by
  induction hle with
  | refl => exact h
  | step _ ih => exact loop_succ ih

/-- The number of passes does not matter. -/
theorem Ends.unique {path : List Char} (h : Ends path s) (h' : Ends path s') : s = s' := by
  obtain ⟨n, hn⟩ := h
  obtain ⟨m, hm⟩ := h'
  obtain ⟨a, ha, ha'⟩ := Option.bind_eq_some_iff.1 hn
  obtain ⟨b, hb, hb'⟩ := Option.bind_eq_some_iff.1 hm
  have hab : a = b := Option.some.inj <|
    (loop_le ha (Nat.le_max_left n m)).symm.trans (loop_le hb (Nat.le_max_right n m))
  subst hab
  exact Option.some.inj (ha'.symm.trans hb')

/-- **Normalising.**  For every string the function terminates and writes nothing ahead of
what it has read.  It leaves the names that `reduce` leaves of the components, joined by
single slashes; a slash stands in front only where the string has one, and it does when a
name is left and no `..` is met at the root.  Doing it again changes nothing. -/
theorem fsNormalizePath_normalises (p rest : List Char) (hp : nul ∉ p) :
    ∃ s, Ends (p ++ nul :: rest) s ∧ s.NeverAhead ∧
      (∃ rooted, s.result = render rooted (reduce (components p)) ∧
        (rooted = true → p.head? = some '/') ∧
        (p.head? = some '/' → ¬AboveRoot (components p) → rooted = true)) ∧
      ∀ rest, ∃ s', Ends (s.result ++ nul :: rest) s' ∧ s'.result = s.result := by
  obtain ⟨s, hs, hahead, hresult⟩ := ends_normalized hp rest
  obtain ⟨hnames, hrooted, habove⟩ := foldl_pushOn (p.head? = some '/') (components p)
  refine ⟨s, hs, hahead, ⟨_, hresult.trans (by rw [normalized, hnames]), ?_, ?_⟩, fun rest => ?_⟩
  · exact fun h => of_decide_eq_true (hrooted h)
  · exact fun h => habove (decide_eq_true h)
  · have hnul : nul ∉ s.result := by
      rw [hresult]
      exact (loop_components hp rest).elim fun _ ⟨_, _, _, _, h⟩ => h
    obtain ⟨s', hs', -, hresult'⟩ := ends_normalized hnul rest
    exact ⟨s', hs', by rw [hresult', hresult, normalized_idem hp]⟩

/-- `/a/./b/../c/` -/
theorem fsNormalizePath_normalises_dots :
    ∃ s, Ends ("/a/./b/../c/".toList ++ [nul]) s ∧ s.NeverAhead ∧
      (∃ rooted, s.result = render rooted (reduce (components "/a/./b/../c/".toList)) ∧
        (rooted = true → "/a/./b/../c/".toList.head? = some '/') ∧
        ("/a/./b/../c/".toList.head? = some '/' → ¬AboveRoot (components "/a/./b/../c/".toList) →
          rooted = true)) ∧
      ∀ rest, ∃ s', Ends (s.result ++ nul :: rest) s' ∧ s'.result = s.result :=
  fsNormalizePath_normalises _ [] (by decide)

/-- **Without its slash.**  The root becomes the empty string, and a `..` at the root
makes the path a relative one. -/
theorem fsNormalizePath_root :
    (¬∃ s, Ends ['/', nul] s ∧ s.result = join true (reduce (components ['/']))) ∧
      ¬∃ s, Ends ['/', '.', '.', '/', 'a', nul] s ∧
        s.result = join true (reduce (components ['/', '.', '.', '/', 'a'])) := by
  constructor
  · rintro ⟨s, hs, hresult⟩
    have hrun : Ends ['/', nul] ⟨[nul, nul], 1, 1, .seenSep, true, 1, [(0, 0), (0, 1)]⟩ :=
      ⟨8, by decide⟩
    rw [hs.unique hrun] at hresult
    exact absurd hresult (by decide)
  · rintro ⟨s, hs, hresult⟩
    have hrun : (fsNormalizePath 30 ['/', '.', '.', '/', 'a', nul]).isSome := by decide
    obtain ⟨s', hs'⟩ := Option.isSome_iff_exists.1 hrun
    have hfound : (fsNormalizePath 30 ['/', '.', '.', '/', 'a', nul]).map State.result = some ['a'] := by
      decide
    rw [hs', Option.map_some, Option.some.injEq, ← hs.unique ⟨30, hs'⟩, hresult] at hfound
    exact absurd hfound (by decide)

end Run

end Normalize
end Fs
end LittleKernel
