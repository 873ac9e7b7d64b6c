import TapeMachine.Proofs.Batch.Simulation
import TapeMachine.Proofs.Tape.WellFormed

/-!
# The batch loop stays in bounds

`Batch.loop` is total on every data: a slot that does not exist reads as the spare slot, and writing
to it does nothing. A loop over plain columns of integers has no such safety net, and there `-1`
stands for a link or a jump that does not exist. `Batch.checkedLoop` is that loop with every access
checked. It has no result if an index is outside the array that it is used on, or if a number that
does not fit a cell is stored into the column of values.

The main statement is `Batch.checkedLoop_eq`: over a linked tape, and with one jump per character,
no check ever fails, and the columns and the numbers that the loop leaves are those of `Batch.loop`.
-/

namespace TapeMachine

namespace Batch

/-! ### The loop with checks -/

/-- What the loop works on, as columns and numbers. -/
structure Registers where
  ip : Int
  values : Array Int
  lefts : Array Int
  rights : Array Int
  current : Int
  leftmost : Int
  rightmost : Int
  size : Int
deriving DecidableEq, Repr

/-- The columns and numbers of a state. -/
def State.registers (s : State) : Registers where
  ip := s.ip
  values := s.tape.values
  lefts := s.tape.lefts
  rights := s.tape.rights
  current := s.tape.current
  leftmost := s.tape.leftmost
  rightmost := s.tape.rightmost
  size := s.tape.size

/-- The entry of an array at an index that must lie inside. -/
def fetch {α : Type} (xs : Array α) (index : Int) : Option α :=
  if 0 ≤ index then xs[index.toNat]? else none

/-- Replaces the entry of a column at an index that must lie inside. -/
def store (column : Array Int) (index value : Int) : Option (Array Int) :=
  if 0 ≤ index ∧ index < column.size then some (column.setIfInBounds index.toNat value) else none

/-- Replaces a value, which must fit a cell, at an index that must lie inside. -/
def storeValue (column : Array Int) (index value : Int) : Option (Array Int) :=
  if -2147483648 ≤ value ∧ value ≤ 2147483647 then store column index value else none

/-- What the loop makes of a command. -/
inductive Reaction where
  /-- The command is left to the caller. -/
  | stops (stop : Stop)
  /-- The loop goes on where the registers say. -/
  | jumps (r : Registers)
  /-- The loop goes on at the next position. -/
  | proceeds (r : Registers)

/-- Moves to the right, putting a new cell into the first spare slot if there is none. -/
def checkedRight (r : Registers) : Option Reaction := do
  let next ← fetch r.rights r.current
  if next = -1 then
    if r.values.size ≤ r.size then
      some (.stops .growth)
    else
      let values ← storeValue r.values r.size 0
      let rights ← store r.rights r.size (-1)
      let lefts ← store r.lefts r.size r.current
      let rights ← store rights r.current r.size
      some (.proceeds { r with
        values, lefts, rights
        size := r.size + 1
        current := r.size
        rightmost := if r.current = r.rightmost then r.size else r.rightmost })
  else
    some (.proceeds { r with current := next })

/-- Moves to the left, putting a new cell into the first spare slot if there is none. -/
def checkedLeft (r : Registers) : Option Reaction := do
  let next ← fetch r.lefts r.current
  if next = -1 then
    if r.values.size ≤ r.size then
      some (.stops .growth)
    else
      let values ← storeValue r.values r.size 0
      let lefts ← store r.lefts r.size (-1)
      let rights ← store r.rights r.size r.current
      let lefts ← store lefts r.current r.size
      some (.proceeds { r with
        values, lefts, rights
        size := r.size + 1
        current := r.size
        leftmost := if r.current = r.leftmost then r.size else r.leftmost })
  else
    some (.proceeds { r with current := next })

/-- What the loop makes of a command, given where each position jumps to. -/
def react (jumps : Array Int) (r : Registers) : Command → Option Reaction
  | .increment => do
    let v ← fetch r.values r.current
    let values ← storeValue r.values r.current
      (if v + 1 > 2147483647 then -2147483648 else v + 1)
    some (.proceeds { r with values })
  | .decrement => do
    let v ← fetch r.values r.current
    let values ← storeValue r.values r.current
      (if v - 1 < -2147483648 then 2147483647 else v - 1)
    some (.proceeds { r with values })
  | .right => checkedRight r
  | .left => checkedLeft r
  | .print => some (.stops .output)
  | .closing => do
    let v ← fetch r.values r.current
    if v = 0 then
      some (.proceeds r)
    else
      let target ← fetch jumps r.ip
      some (if target = -1 then .proceeds r else .jumps { r with ip := target })
  | .opening | .comment => some (.proceeds r)

/-- Executes at most `budget` commands, after `done` of them. Gives the registers, the reason for
stopping and the number of commands, or nothing as soon as a check fails. -/
def checkedLoop (text : Array Char) (jumps : Array Int) :
    (budget : Nat) → Registers → (done : Nat) → Option (Registers × Stop × Nat)
  | 0, r, done => some (r, .budget, done)
  | budget + 1, r, done =>
    if r.ip < 0 ∨ text.size ≤ r.ip then
      some (r, .finish, done)
    else do
      let char ← fetch text r.ip
      let reaction ← react jumps r (Command.ofChar char)
      match reaction with
      | .stops stop => some (r, stop, done)
      | .jumps next => checkedLoop text jumps budget next (done + 1)
      | .proceeds next =>
        let next : Registers := { next with ip := next.ip + 1 }
        if next.ip < 0 ∨ text.size ≤ next.ip then
          some (next, .finish, done + 1)
        else
          checkedLoop text jumps budget next (done + 1)

/-- The checked loop on the columns of a state. -/
def checkedRun (p : Compiled) (s : State) (budget : Int) : Option (Registers × Stop × Nat) :=
  checkedLoop p.text p.jumps budget.toNat s.registers 0

/-- No access of the loop fails a check, and the checks change nothing. -/
def InBounds (p : Compiled) (s : State) (budget : Int) : Prop :=
  checkedRun p s budget = some
    ((run p s budget).state.registers, (run p s budget).stop, (run p s budget).steps)

/-! ### Columns -/

section columns

variable {α : Type} (slots : Array Slot) (i : Nat) {f : Slot → α} {g : Slot → Slot}

/-- A change of a slot that leaves one part of it alone does not show in the column of that part. -/
theorem map_modify_of_same (h : ∀ s, f (g s) = f s) : (slots.modify i g).map f = slots.map f := by
  apply Array.ext
  · simp
  · intro j hj hj'
    simp only [Array.getElem_map, Array.getElem_modify]
    split_ifs
    · rw [h]
    · rfl

/-- A change of a slot that sets one part of it is a store into the column of that part. -/
theorem map_modify_of_set {a : α} (h : ∀ s, f (g s) = a) :
    (slots.modify i g).map f = (slots.map f).setIfInBounds i a := by
  apply Array.ext
  · simp
  · intro j hj hj'
    have hlt : j < slots.size := by simpa using hj
    rw [Array.getElem_setIfInBounds (by simpa using hlt)]
    simp only [Array.getElem_map, Array.getElem_modify]
    split_ifs
    · rw [h]
    · rfl

end columns

/-- Inside an array a fetch succeeds. -/
theorem fetch_of_lt {α : Type} {xs : Array α} {i : Nat} (h : i < xs.size) :
    fetch xs (i : Int) = some xs[i] := by
  simp [fetch, h]

/-- Inside a column a store succeeds. -/
theorem store_of_lt {column : Array Int} {i : Nat} {v : Int} (h : i < column.size) :
    store column i v = some (column.setIfInBounds i v) := by
  simp [store, h]

/-- Inside a column the store of a number that fits a cell succeeds. -/
theorem storeValue_of_lt {column : Array Int} {i : Nat} (c : Cell) (h : i < column.size) :
    storeValue column i c.toInt = some (column.setIfInBounds i c.toInt) := by
  rw [storeValue, if_pos ⟨c.le_toInt, c.toInt_le⟩, store_of_lt h]

section fetches

variable {t : Tape} {id : Nat}

theorem fetch_values (h : id < t.capacity) : fetch t.values id = some (t.valueAt id).toInt := by
  have hlt : id < t.slots.size := h
  rw [fetch_of_lt (by rwa [Tape.size_values])]
  simp [Tape.values, Tape.valueAt, Tape.slot, hlt]

theorem fetch_lefts (h : id < t.capacity) :
    fetch t.lefts id = some (Tape.linkNumber (t.leftOf id)) := by
  have hlt : id < t.slots.size := h
  rw [fetch_of_lt (by rwa [Tape.size_lefts])]
  simp [Tape.lefts, Tape.leftOf, Tape.slot, hlt]

theorem fetch_rights (h : id < t.capacity) :
    fetch t.rights id = some (Tape.linkNumber (t.rightOf id)) := by
  have hlt : id < t.slots.size := h
  rw [fetch_of_lt (by rwa [Tape.size_rights])]
  simp [Tape.rights, Tape.rightOf, Tape.slot, hlt]

end fetches

/-- Only what does not exist is written as `-1`. -/
theorem linkNumber_eq_neg_one_iff (link : Option Nat) :
    Tape.linkNumber link = -1 ↔ link = none := by
  cases link with
  | none => simp [Tape.linkNumber]
  | some id => simp [Tape.linkNumber]

/-! ### One command -/

/-- The number that is stored for one more, wrapped by hand at the greatest cell. -/
theorem toInt_incremented (c : Cell) :
    (incremented c).toInt = if c.toInt + 1 > 2147483647 then -2147483648 else c.toInt + 1 := by
  have hmax : Int32.maxValue.toInt = 2147483647 := by decide
  have hmin : Int32.minValue.toInt = -2147483648 := by decide
  have hlow := c.le_toInt
  unfold incremented
  rw [hmax]
  split_ifs with h
  · decide
  · rw [Int32.toInt_add, show (1 : Int32).toInt = 1 from by decide]
    apply Int.bmod_eq_of_le <;> omega

/-- The number that is stored for one less, wrapped by hand at the least cell. -/
theorem toInt_decremented (c : Cell) :
    (decremented c).toInt = if c.toInt - 1 < -2147483648 then 2147483647 else c.toInt - 1 := by
  have hmin : Int32.minValue.toInt = -2147483648 := by decide
  have hmax : Int32.maxValue.toInt = 2147483647 := by decide
  have hhigh := c.toInt_le
  unfold decremented
  rw [hmin]
  split_ifs with h
  · decide
  · rw [Int32.toInt_sub, show (1 : Int32).toInt = 1 from by decide]
    apply Int.bmod_eq_of_le <;> omega

/-- What the checked loop makes of a command if no check fails. -/
def reaction (p : Compiled) (s : State) (c : Command) : Reaction :=
  match obstacle? s.tape c with
  | some stop => .stops stop
  | none =>
    match jump? p s c with
    | some target => .jumps (State.registers ⟨target, s.tape⟩)
    | none => .proceeds (State.registers ⟨s.ip, effect s.tape c⟩)

section commands

variable {p : Compiled} {s : State} {c : Command} {ids : List Nat}

theorem reaction_of_obstacle {stop : Stop} (h : obstacle? s.tape c = some stop) :
    reaction p s c = .stops stop := by
  simp only [reaction, h]

theorem reaction_of_fallthrough (h : obstacle? s.tape c = none) (hj : jump? p s c = none) :
    reaction p s c = .proceeds (State.registers ⟨s.ip, effect s.tape c⟩) := by
  simp only [reaction, h, hj]

/-- Writing under the head is a store into the column of values. -/
theorem registers_write (s : State) (v : Cell) :
    State.registers ⟨s.ip, s.tape.write v⟩ =
      { s.registers with values := s.tape.values.setIfInBounds s.tape.current v.toInt } := by
  have hvalues : (s.tape.write v).values =
      s.tape.values.setIfInBounds s.tape.current v.toInt := by
    simp only [Tape.write, Tape.setAt, Tape.values]
    exact map_modify_of_set _ _ (by intro _; rfl)
  have hlefts : (s.tape.write v).lefts = s.tape.lefts := by
    simp only [Tape.write, Tape.setAt, Tape.lefts]
    exact map_modify_of_same _ _ (by intro _; rfl)
  have hrights : (s.tape.write v).rights = s.tape.rights := by
    simp only [Tape.write, Tape.setAt, Tape.rights]
    exact map_modify_of_same _ _ (by intro _; rfl)
  rw [State.registers, hvalues, hlefts, hrights]
  rfl

/-- The check of a store under the head never fails. -/
theorem storeValue_current (h : s.tape.Linked ids) (v : Cell) :
    storeValue s.tape.values s.tape.current v.toInt =
      some (s.tape.values.setIfInBounds s.tape.current v.toInt) := by
  apply storeValue_of_lt
  rw [Tape.size_values]
  exact h.current_lt_capacity

/-- The columns after a move to a new cell on the right. -/
theorem registers_moveRight (h : s.tape.rightOf s.tape.current = none) :
    State.registers ⟨s.ip, moveRight s.tape⟩ =
      { s.registers with
        values := s.tape.values.setIfInBounds s.tape.size 0
        lefts := s.tape.lefts.setIfInBounds s.tape.size s.tape.current
        rights := (s.tape.rights.setIfInBounds s.tape.size (-1)).setIfInBounds s.tape.current
          s.tape.size
        size := s.tape.size + 1
        current := s.tape.size
        rightmost := if (s.tape.current : Int) = s.tape.rightmost then (s.tape.size : Int)
          else s.tape.rightmost } := by
  have hvalues : (moveRight s.tape).values = s.tape.values.setIfInBounds s.tape.size 0 := by
    simp only [moveRight, h, Tape.values]
    rw [map_modify_of_same _ _ (by intro _; rfl), Array.map_setIfInBounds]
    rfl
  have hlefts : (moveRight s.tape).lefts =
      s.tape.lefts.setIfInBounds s.tape.size s.tape.current := by
    simp only [moveRight, h, Tape.lefts]
    rw [map_modify_of_same _ _ (by intro _; rfl), Array.map_setIfInBounds]
    rfl
  have hrights : (moveRight s.tape).rights =
      (s.tape.rights.setIfInBounds s.tape.size (-1)).setIfInBounds s.tape.current
        s.tape.size := by
    simp only [moveRight, h, Tape.rights]
    rw [map_modify_of_set (a := (s.tape.size : Int)) _ _ (by intro _; rfl),
      Array.map_setIfInBounds]
    rfl
  rw [State.registers, hvalues, hlefts, hrights]
  simp only [moveRight, h, State.registers, Int.natCast_inj, Int.natCast_add, Int.natCast_one]
  split_ifs <;> rfl

/-- The columns after a move to a new cell on the left. -/
theorem registers_moveLeft (h : s.tape.leftOf s.tape.current = none) :
    State.registers ⟨s.ip, moveLeft s.tape⟩ =
      { s.registers with
        values := s.tape.values.setIfInBounds s.tape.size 0
        lefts := (s.tape.lefts.setIfInBounds s.tape.size (-1)).setIfInBounds s.tape.current
          s.tape.size
        rights := s.tape.rights.setIfInBounds s.tape.size s.tape.current
        size := s.tape.size + 1
        current := s.tape.size
        leftmost := if (s.tape.current : Int) = s.tape.leftmost then (s.tape.size : Int)
          else s.tape.leftmost } := by
  have hvalues : (moveLeft s.tape).values = s.tape.values.setIfInBounds s.tape.size 0 := by
    simp only [moveLeft, h, Tape.values]
    rw [map_modify_of_same _ _ (by intro _; rfl), Array.map_setIfInBounds]
    rfl
  have hlefts : (moveLeft s.tape).lefts =
      (s.tape.lefts.setIfInBounds s.tape.size (-1)).setIfInBounds s.tape.current
        s.tape.size := by
    simp only [moveLeft, h, Tape.lefts]
    rw [map_modify_of_set (a := (s.tape.size : Int)) _ _ (by intro _; rfl),
      Array.map_setIfInBounds]
    rfl
  have hrights : (moveLeft s.tape).rights =
      s.tape.rights.setIfInBounds s.tape.size s.tape.current := by
    simp only [moveLeft, h, Tape.rights]
    rw [map_modify_of_same _ _ (by intro _; rfl), Array.map_setIfInBounds]
    rfl
  rw [State.registers, hvalues, hlefts, hrights]
  simp only [moveLeft, h, State.registers, Int.natCast_inj, Int.natCast_add, Int.natCast_one]
  split_ifs <;> rfl

/-- A move to the right passes its checks. -/
theorem checkedRight_eq (h : s.tape.Linked ids) :
    checkedRight s.registers = some (reaction p s .right) := by
  have hlt := h.current_lt_capacity
  have hfetch : fetch s.registers.rights s.registers.current = _ := fetch_rights hlt
  rw [checkedRight, hfetch, Option.bind_eq_bind, Option.bind_some]
  rcases hr : s.tape.rightOf s.tape.current with _ | next
  · rw [if_pos ((linkNumber_eq_neg_one_iff none).mpr rfl)]
    simp only [State.registers, Tape.size_values, Int.ofNat_le]
    by_cases hfull : s.tape.capacity ≤ s.tape.size
    · have hobs : obstacle? s.tape .right = some .growth := by
        simp [obstacle?, hr, Tape.full, hfull]
      rw [if_pos hfull, reaction_of_obstacle hobs]
    · have hobs : obstacle? s.tape .right = none := by simp [obstacle?, hr, Tape.full, hfull]
      have hspare : s.tape.size < s.tape.capacity := by omega
      have hzero : storeValue s.tape.values s.tape.size 0 = _ :=
        storeValue_of_lt (0 : Cell) (by rwa [Tape.size_values])
      rw [if_neg hfull, hzero, store_of_lt (by rwa [Tape.size_rights]),
        store_of_lt (by rwa [Tape.size_lefts])]
      simp only [Option.bind_eq_bind, Option.bind_some]
      rw [store_of_lt (by simpa using hlt), Option.bind_some,
        reaction_of_fallthrough hobs rfl, effect,
        registers_moveRight hr]
      rfl
  · rw [if_neg (by simp [linkNumber_eq_neg_one_iff]),
      reaction_of_fallthrough (by simp [obstacle?, hr]) rfl]
    simp only [effect, moveRight, hr]
    rfl

/-- A move to the left passes its checks. -/
theorem checkedLeft_eq (h : s.tape.Linked ids) :
    checkedLeft s.registers = some (reaction p s .left) := by
  have hlt := h.current_lt_capacity
  have hfetch : fetch s.registers.lefts s.registers.current = _ := fetch_lefts hlt
  rw [checkedLeft, hfetch, Option.bind_eq_bind, Option.bind_some]
  rcases hl : s.tape.leftOf s.tape.current with _ | next
  · rw [if_pos ((linkNumber_eq_neg_one_iff none).mpr rfl)]
    simp only [State.registers, Tape.size_values, Int.ofNat_le]
    by_cases hfull : s.tape.capacity ≤ s.tape.size
    · have hobs : obstacle? s.tape .left = some .growth := by
        simp [obstacle?, hl, Tape.full, hfull]
      rw [if_pos hfull, reaction_of_obstacle hobs]
    · have hobs : obstacle? s.tape .left = none := by simp [obstacle?, hl, Tape.full, hfull]
      have hspare : s.tape.size < s.tape.capacity := by omega
      have hzero : storeValue s.tape.values s.tape.size 0 = _ :=
        storeValue_of_lt (0 : Cell) (by rwa [Tape.size_values])
      rw [if_neg hfull, hzero, store_of_lt (by rwa [Tape.size_lefts]),
        store_of_lt (by rwa [Tape.size_rights])]
      simp only [Option.bind_eq_bind, Option.bind_some]
      rw [store_of_lt (by simpa using hlt), Option.bind_some,
        reaction_of_fallthrough hobs rfl, effect,
        registers_moveLeft hl]
      rfl
  · rw [if_neg (by simp [linkNumber_eq_neg_one_iff]),
      reaction_of_fallthrough (by simp [obstacle?, hl]) rfl]
    simp only [effect, moveLeft, hl]
    rfl

/-- Inside the program, the entry of a jump can be read, and it is the jump of the position. -/
theorem exists_fetch_jumps (hsize : p.jumps.size = p.text.size) {ip : Int}
    (h : p.inside ip = true) :
    ∃ target, fetch p.jumps ip = some target ∧
      p.targetAt? ip = if target = -1 then none else some target := by
  obtain ⟨hlow, hhigh⟩ : 0 ≤ ip ∧ ip < p.text.size := by simpa [Compiled.inside] using h
  have hlt : ip.toNat < p.jumps.size := by omega
  refine ⟨p.jumps[ip.toNat], ?_, ?_⟩
  · simp [fetch, hlow, hlt]
  · rw [Compiled.targetAt?, if_pos hlow, Array.getElem?_eq_getElem hlt]
    by_cases htarget : p.jumps[ip.toNat] = -1 <;> simp [Bracket.noJump, htarget]

/-- **One command passes its checks**, if the head is on a cell of a linked tape and the command is
inside a program that has a jump for each of its characters. -/
theorem react_eq (h : s.tape.Linked ids) (hsize : p.jumps.size = p.text.size)
    (hin : p.inside s.ip = true) :
    react p.jumps s.registers c = some (reaction p s c) := by
  have hlt := h.current_lt_capacity
  have hfetch : fetch s.registers.values s.registers.current = some s.tape.read.toInt :=
    fetch_values hlt
  cases c with
  | increment =>
      have hstore : storeValue s.registers.values s.registers.current _ = _ :=
        storeValue_current h (incremented s.tape.read)
      rw [toInt_incremented] at hstore
      simp only [react, hfetch, Option.bind_eq_bind, Option.bind_some]
      rw [hstore, Option.bind_some, reaction_of_fallthrough rfl rfl, effect, registers_write,
        toInt_incremented]
  | decrement =>
      have hstore : storeValue s.registers.values s.registers.current _ = _ :=
        storeValue_current h (decremented s.tape.read)
      rw [toInt_decremented] at hstore
      simp only [react, hfetch, Option.bind_eq_bind, Option.bind_some]
      rw [hstore, Option.bind_some, reaction_of_fallthrough rfl rfl, effect, registers_write,
        toInt_decremented]
  | right => exact checkedRight_eq h
  | left => exact checkedLeft_eq h
  | closing =>
      have hzero : s.tape.read.toInt = 0 ↔ s.tape.read = 0 := Int32.toInt_inj (y := 0)
      obtain ⟨target, htarget, hjump⟩ := exists_fetch_jumps hsize hin
      have htarget : fetch p.jumps s.registers.ip = some target := htarget
      simp only [react, hfetch, htarget, Option.bind_eq_bind, Option.bind_some, hzero, reaction,
        obstacle?, jump?, hjump]
      by_cases hread : s.tape.read = 0
      · rw [if_pos hread, if_pos hread]
        rfl
      · rw [if_neg hread, if_neg hread]
        by_cases hnone : target = -1
        · rw [if_pos hnone, if_pos hnone]
          rfl
        · rw [if_neg hnone, if_neg hnone]
          rfl
  | print | opening | comment => rfl

end commands

/-! ### The loop -/

/-- A command that the loop executes leaves a linked tape linked. -/
theorem exists_linked_effect {t : Tape} {ids : List Nat} {c : Command} (h : t.Linked ids)
    (hobs : obstacle? t c = none) : ∃ ids, (effect t c).Linked ids := by
  cases c with
  | increment | decrement => exact ⟨ids, h.write _⟩
  | right =>
      rw [effect, moveRight_eq hobs]
      exact ⟨_, h.moveRight⟩
  | left =>
      rw [effect, moveLeft_eq hobs]
      exact ⟨_, h.moveLeft⟩
  | print | opening | closing | comment => exact ⟨ids, h⟩

/-- A batch leaves a linked tape linked. -/
theorem exists_linked_loop (p : Compiled) (budget : Nat) (s : State) (done : Nat)
    (h : ∃ ids, s.tape.Linked ids) : ∃ ids, (loop p budget s done).state.tape.Linked ids := by
  fun_induction loop p budget s done with
  | case1 => exact h
  | case2 => exact h
  | case3 => exact h
  | case4 _ _ _ _ _ _ _ _ ih => exact ih h
  | case5 _ _ _ _ _ hobs _ _ _ ih =>
      obtain ⟨ids, hids⟩ := h
      exact ih (exists_linked_effect hids hobs)
  | case6 _ _ _ _ _ hobs =>
      obtain ⟨ids, hids⟩ := h
      exact exists_linked_effect hids hobs

/-- The loop finds a position outside the program by comparing it with both ends. -/
theorem outside_iff (p : Compiled) (ip : Int) :
    (ip < 0 ∨ (p.text.size : Int) ≤ ip) ↔ p.inside ip = false := by
  simp only [Compiled.inside, decide_eq_false_iff_not]
  omega

/-- Inside the program the character can be read. -/
theorem fetch_text {p : Compiled} {ip : Int} {c : Command} (h : p.commandAt? ip = some c) :
    ∃ char, fetch p.text ip = some char ∧ Command.ofChar char = c :=
  Option.map_eq_some_iff.mp h

/-- **No check of the loop fails.** On a linked tape, with one jump per character, from any position
and with any budget, the checked loop does what the unchecked one does. -/
theorem checkedLoop_eq {p : Compiled} (hsize : p.jumps.size = p.text.size) (budget : Nat)
    (s : State) (done : Nat) (h : ∃ ids, s.tape.Linked ids) :
    checkedLoop p.text p.jumps budget s.registers done =
      some ((loop p budget s done).state.registers, (loop p budget s done).stop,
        (loop p budget s done).steps) := by
  induction budget generalizing s done with
  | zero => rfl
  | succ budget ih =>
      rcases hc : p.commandAt? s.ip with _ | c
      · have hin := (p.commandAt?_eq_none_iff s.ip).mp hc
        have hout : s.registers.ip < 0 ∨ p.text.size ≤ s.registers.ip := (outside_iff p _).mpr hin
        simp only [checkedLoop, loop, hc, if_pos hout]
      have hin : p.inside s.ip = true := Compiled.inside_of_commandAt? hc
      have hout : ¬ (s.registers.ip < 0 ∨ p.text.size ≤ s.registers.ip) := by
        rw [outside_iff, Bool.not_eq_false]
        exact hin
      obtain ⟨ids, hids⟩ := h
      obtain ⟨char, hfetch, rfl⟩ := fetch_text hc
      have hchar : fetch p.text s.registers.ip = some char := hfetch
      have hreact := react_eq (c := Command.ofChar char) hids hsize hin
      simp only [checkedLoop, if_neg hout, hchar, hreact, Option.bind_eq_bind, Option.bind_some,
        reaction, loop, hc]
      rcases hobs : obstacle? s.tape (Command.ofChar char) with _ | stop
      · rcases jump? p s (Command.ofChar char) with _ | target
        · -- only here the end of the program is looked for at once
          let next : State := ⟨s.ip + 1, effect s.tape (Command.ofChar char)⟩
          have hend : (next.registers.ip < 0 ∨ p.text.size ≤ next.registers.ip) ↔ _ :=
            outside_iff p next.ip
          have hrest := ih next (done + 1) (exists_linked_effect hids hobs)
          by_cases hinside : p.inside next.ip = true
          · have hgo : ¬ (next.registers.ip < 0 ∨ p.text.size ≤ next.registers.ip) := by
              rw [hend, hinside]
              exact Bool.noConfusion
            rw [if_pos hinside]
            exact (if_neg hgo).trans hrest
          · have hstop := hend.mpr (Bool.eq_false_iff.mpr hinside)
            rw [if_neg hinside]
            exact if_pos hstop
        · exact ih ⟨target, s.tape⟩ (done + 1) ⟨ids, hids⟩
      · rfl

/-- The columns and numbers that a batch works on stay in bounds, whatever its position and
budget. -/
theorem inBounds_of_linked {p : Compiled} {s : State} (hsize : p.jumps.size = p.text.size)
    (h : ∃ ids, s.tape.Linked ids) (budget : Int) : InBounds p s budget :=
  checkedLoop_eq hsize budget.toNat s 0 h

-- the checks are not idle: with the head off the arena the first access fails
example : checkedRun (Program.ofChars ['+'])
    ⟨0, { slots := #[{}], size := 1, current := 3, leftmost := 0, rightmost := 0 }⟩ 1 = none := by
  cbv

end Batch

end TapeMachine
