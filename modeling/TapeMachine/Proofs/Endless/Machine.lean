import Mathlib.Tactic.SplitIfs
import TapeMachine.Session

/-!
# The machine on an endless tape

The tape that programs are written for has no arena and no ends: there is a cell at every integer
position, and all but finitely many of them are zero. `Endless` is that tape, with a *window* of
positions that are shown; the window widens when the head leaves it or when somebody asks for a cell
at one of its ends, and cells that have come into it can be written to by name. `EndlessMachine` is
the machine on such a tape.

What is done to the machine is a sequence of acts, which speak of positions. Requests to a session
speak of cell ids, and a request is read as an act by looking its id up among the positions that
have come into the window (`Touch.act?`).

Widening the window is an act that nothing else depends on: two histories of acts that differ in
nothing but widenings leave machines that are alike in all but their windows
(`EndlessMachine.Alike.after`). The same is not true of histories of requests, because ids are given
out in the order in which positions come into the window, so that one more position there takes the
id of another. It is true where ids are those of positions that were there before
(`EndlessMachine.filter_counts_acts`): a position keeps its id, however wide the window gets.
-/

namespace TapeMachine

/-! ### The tape -/

/-- A tape with a cell at every integer position. -/
structure Endless where
  cells : Int → Cell := fun _ => 0
  head : Int := 0
  /-- The first position of the window. -/
  lo : Int := 0
  /-- The last position of the window. -/
  hi : Int := 0
  /-- The positions of the window in the order in which they came into it. The number of a position
  in this list is the id under which it can be written to. -/
  entered : List Int := [0]

namespace Endless

/-- The cell under the head. -/
def read (e : Endless) : Cell :=
  e.cells e.head

/-- Replaces the cell at a position. -/
def write (e : Endless) (x : Int) (value : Cell) : Endless :=
  { e with cells := fun y => if y = x then value else e.cells y }

@[simp] theorem cells_write (e : Endless) (x : Int) (value : Cell) (y : Int) :
    (e.write x value).cells y = if y = x then value else e.cells y := rfl

/-- Takes one more position into the window on its left. -/
def widenLeft (e : Endless) : Endless :=
  { e with lo := e.lo - 1, entered := e.entered ++ [e.lo - 1] }

/-- Takes one more position into the window on its right. -/
def widenRight (e : Endless) : Endless :=
  { e with hi := e.hi + 1, entered := e.entered ++ [e.hi + 1] }

/-- Moves the head to the right. The window widens if the head leaves it. -/
def moveRight (e : Endless) : Endless :=
  { (if e.hi < e.head + 1 then e.widenRight else e) with head := e.head + 1 }

/-- Moves the head to the left. The window widens if the head leaves it. -/
def moveLeft (e : Endless) : Endless :=
  { (if e.head - 1 < e.lo then e.widenLeft else e) with head := e.head - 1 }

theorem entered_moveRight (e : Endless) : e.entered <+: e.moveRight.entered := by
  unfold moveRight
  split_ifs
  · exact List.prefix_append _ _
  · exact List.prefix_rfl

theorem entered_moveLeft (e : Endless) : e.entered <+: e.moveLeft.entered := by
  unfold moveLeft
  split_ifs
  · exact List.prefix_append _ _
  · exact List.prefix_rfl

@[simp] theorem cells_moveRight (e : Endless) : e.moveRight.cells = e.cells := by
  unfold moveRight
  split_ifs <;> rfl

@[simp] theorem head_moveRight (e : Endless) : e.moveRight.head = e.head + 1 := rfl

@[simp] theorem cells_moveLeft (e : Endless) : e.moveLeft.cells = e.cells := by
  unfold moveLeft
  split_ifs <;> rfl

@[simp] theorem head_moveLeft (e : Endless) : e.moveLeft.head = e.head - 1 := rfl

/-- Inside the window a move changes nothing but the head. -/
theorem moveRight_of_lt {e : Endless} (h : e.head < e.hi) :
    e.moveRight = { e with head := e.head + 1 } := by
  unfold moveRight
  rw [if_neg (by omega)]

theorem moveLeft_of_lt {e : Endless} (h : e.lo < e.head) :
    e.moveLeft = { e with head := e.head - 1 } := by
  unfold moveLeft
  rw [if_neg (by omega)]

/-- At the end of the window the head moves to the position that comes into it. -/
theorem moveRight_of_eq {e : Endless} (h : e.head = e.hi) :
    e.moveRight = { e.widenRight with head := e.hi + 1 } := by
  unfold moveRight
  rw [if_pos (by omega), h]

theorem moveLeft_of_eq {e : Endless} (h : e.head = e.lo) :
    e.moveLeft = { e.widenLeft with head := e.lo - 1 } := by
  unfold moveLeft
  rw [if_pos (by omega), h]

/-- The positions of the window from left to right. -/
def window (e : Endless) : List Int :=
  (List.range (e.hi - e.lo + 1).toNat).map fun (k : Nat) => e.lo + k

/-- The cells of the window from left to right, each with a mark that tells whether the head is
there. -/
def snapshot (e : Endless) : List (Cell × Bool) :=
  e.window.map fun x => (e.cells x, x == e.head)

/-- The position that a datum names by its id, if one has come into the window under that id. -/
def positionOf? (e : Endless) (id : Datum) : Option Int :=
  match id.toInt with
  | .ok n => if 0 ≤ n then e.entered[n.toNat]? else none
  | .error _ => none

/-- What a command does to the tape. -/
def effect (e : Endless) : Command → Endless
  | .increment => e.write e.head (e.read + 1)
  | .decrement => e.write e.head (e.read - 1)
  | .right => e.moveRight
  | .left => e.moveLeft
  | .print | .opening | .closing | .comment => e

/-- Positions that have come into the window keep their ids. -/
theorem entered_effect (e : Endless) (c : Command) : e.entered <+: (e.effect c).entered := by
  cases c with
  | right => exact e.entered_moveRight
  | left => exact e.entered_moveLeft
  | _ => exact List.prefix_rfl

/-- An id names the same position in a window that has become wider, if it is the id of a position
that was there before. -/
theorem positionOf?_of_prefix {e e' : Endless} (h : e.entered <+: e'.entered) {id : Datum}
    (hid : ∀ n, id.toInt = .ok n → n < e.entered.length) :
    e'.positionOf? id = e.positionOf? id := by
  unfold positionOf?
  rcases hn : id.toInt with fault | n
  · rfl
  · have hlt := hid n hn
    obtain ⟨more, hmore⟩ := h
    by_cases hpos : 0 ≤ n
    · simp only [hpos, if_true, ← hmore]
      exact List.getElem?_append_left (by omega)
    · simp only [hpos, if_false]

/-- What a command prints. -/
def printed (e : Endless) : Command → Array String
  | .print => #[Token.ofCell e.read]
  | _ => #[]

end Endless

/-! ### The machine -/

/-- A program in execution on an endless tape. -/
structure EndlessMachine where
  program : Program
  tape : Endless := {}
  ip : Int := 0
  output : Array String := #[]
  terminated : Bool := false
  stepCount : Nat := 0

namespace EndlessMachine

/-- A machine that is about to run a text on an empty tape. -/
def load (text : String) : EndlessMachine where
  program := Program.ofString text

/-- Where a command jumps to. -/
def jump? (m : EndlessMachine) : Command → Option Nat
  | .closing => if m.tape.read = 0 then none else m.program.jumpAt? m.ip
  | _ => none

/-- Executes one command. -/
def step (m : EndlessMachine) : EndlessMachine :=
  match m.program.commandAt? m.ip with
  | none => { m with terminated := true }
  | some c =>
    match m.jump? c with
    | some target => { m with ip := target, stepCount := m.stepCount + 1 }
    | none =>
      { m with
        tape := m.tape.effect c
        output := m.output ++ m.tape.printed c
        ip := m.ip + 1
        stepCount := m.stepCount + 1
        terminated := m.terminated || !m.program.inside (m.ip + 1) }

section step

variable {m : EndlessMachine} {c : Command}

theorem step_of_outside (hc : m.program.commandAt? m.ip = none) :
    m.step = { m with terminated := true } := by
  unfold step
  rw [hc]

theorem step_of_jump {target : Nat} (hc : m.program.commandAt? m.ip = some c)
    (hj : m.jump? c = some target) :
    m.step = { m with ip := target, stepCount := m.stepCount + 1 } := by
  unfold step
  rw [hc]
  simp only [hj]

theorem step_of_fallthrough (hc : m.program.commandAt? m.ip = some c) (hj : m.jump? c = none) :
    m.step =
      { m with
        tape := m.tape.effect c
        output := m.output ++ m.tape.printed c
        ip := m.ip + 1
        stepCount := m.stepCount + 1
        terminated := m.terminated || !m.program.inside (m.ip + 1) } := by
  unfold step
  rw [hc]
  simp only [hj]

/-- A step leaves the positions in the window, with their ids. -/
theorem entered_step (m : EndlessMachine) : m.tape.entered <+: m.step.tape.entered := by
  rcases hc : m.program.commandAt? m.ip with _ | c
  · simp only [step_of_outside hc]
    exact List.prefix_rfl
  · rcases hj : m.jump? c with _ | target
    · simp only [step_of_fallthrough hc hj]
      exact m.tape.entered_effect c
    · simp only [step_of_jump hc hj]
      exact List.prefix_rfl

end step

/-- What can be done to a machine. -/
inductive Act where
  | step
  | widenLeft
  | widenRight
  /-- Replaces the cell under the head. -/
  | write (value : Cell)
  /-- Replaces the cell at a position. -/
  | writeAt (x : Int) (value : Cell)
deriving DecidableEq

/-- Whether an act is other than a widening of the window. -/
def Act.counts : Act → Bool
  | .widenLeft | .widenRight => false
  | _ => true

/-- The machine after an act. -/
def perform (m : EndlessMachine) : Act → EndlessMachine
  | .step => m.step
  | .widenLeft => { m with tape := m.tape.widenLeft }
  | .widenRight => { m with tape := m.tape.widenRight }
  | .write value => { m with tape := m.tape.write m.tape.head value }
  | .writeAt x value => { m with tape := m.tape.write x value }

/-- An act leaves the positions in the window, with their ids. -/
theorem entered_perform (m : EndlessMachine) (a : Act) :
    m.tape.entered <+: (m.perform a).tape.entered := by
  cases a with
  | step => exact m.entered_step
  | widenLeft | widenRight => exact List.prefix_append _ _
  | write | writeAt => exact List.prefix_rfl

/-- The machine after a sequence of acts. -/
def after (m : EndlessMachine) (acts : List Act) : EndlessMachine :=
  acts.foldl perform m

end EndlessMachine

/-! ### Requests -/

/-- A request to a session that takes a step, adds a cell at an end, or writes to a cell. -/
inductive Touch where
  | step
  | insertLeft
  | insertRight
  /-- Writes to the cell under the head. -/
  | write (value : Datum)
  /-- Writes to the cell with the given id. -/
  | setValue (id value : Datum)

namespace Touch

def request : Touch → SessionRequest
  | .step => .step
  | .insertLeft => .tape .insertLeft
  | .insertRight => .tape .insertRight
  | .write value => .tape (.write value)
  | .setValue id value => .tape (.setValue id value)

/-- Whether a request is other than one for a cell at an end. -/
def counts : Touch → Bool
  | .insertLeft | .insertRight => false
  | _ => true

/-- If a request names a cell by its id, then the id is below the given one. -/
def Below (size : Nat) : Touch → Prop
  | .setValue id _ => ∀ n, id.toInt = .ok n → n < size
  | _ => True

/-- The act that a request amounts to; none if it names a cell that there is not. -/
def act? (e : Endless) : Touch → Option EndlessMachine.Act
  | .step => some .step
  | .insertLeft => some .widenLeft
  | .insertRight => some .widenRight
  | .write value => some (.write value.toCell)
  | .setValue id value => (e.positionOf? id).map fun x => .writeAt x value.toCell

/-- Requests for cells at an end are the ones that amount to widenings. -/
theorem counts_of_act? {e : Endless} {touch : Touch} {a : EndlessMachine.Act}
    (h : touch.act? e = some a) : a.counts = touch.counts := by
  cases touch with
  | setValue id value =>
      obtain ⟨x, -, rfl⟩ := Option.map_eq_some_iff.mp h
      rfl
  | _ =>
      cases h
      rfl

/-- A request amounts to the same in a window that has become wider, if it names no cell that was
not there before. -/
theorem act?_of_prefix {e e' : Endless} (h : e.entered <+: e'.entered) {touch : Touch}
    (hbelow : touch.Below e.entered.length) : touch.act? e' = touch.act? e := by
  cases touch with
  | setValue id value => rw [act?, act?, Endless.positionOf?_of_prefix h hbelow]
  | _ => rfl

end Touch

namespace EndlessMachine

/-- The machine after a request. -/
def receive (m : EndlessMachine) (touch : Touch) : EndlessMachine :=
  m.after (touch.act? m.tape).toList

/-- The acts that a sequence of requests amounts to. -/
def acts (m : EndlessMachine) : List Touch → List Act
  | [] => []
  | touch :: rest => (touch.act? m.tape).toList ++ (m.receive touch).acts rest

/-- The acts of a sequence of requests are those of the first one and then of the rest. -/
theorem after_acts_cons (m : EndlessMachine) (touch : Touch) (rest : List Touch) :
    m.after (m.acts (touch :: rest)) = (m.receive touch).after ((m.receive touch).acts rest) := by
  rw [acts, after, List.foldl_append]
  rfl

theorem entered_receive (m : EndlessMachine) (touch : Touch) :
    m.tape.entered <+: (m.receive touch).tape.entered := by
  unfold receive
  rcases touch.act? m.tape with _ | a
  · exact List.prefix_rfl
  · exact m.entered_perform a

/-- **When requests amount to the same acts.** Whatever has come into the window since, requests
that name no cell that was not there before amount to acts that can be told from the window as it
was, the widenings apart. -/
theorem filter_counts_acts {e : Endless} {m : EndlessMachine} (h : e.entered <+: m.tape.entered)
    {touches : List Touch} (hbelow : ∀ touch ∈ touches, touch.Below e.entered.length) :
    (m.acts touches).filter Act.counts =
      (touches.filter Touch.counts).filterMap (Touch.act? e) := by
  induction touches generalizing m with
  | nil => rfl
  | cons touch touches ih =>
      obtain ⟨hfirst, hrest⟩ := List.forall_mem_cons.mp hbelow
      rw [acts, List.filter_append, ih (h.trans (m.entered_receive touch)) hrest,
        Touch.act?_of_prefix h hfirst]
      rcases hact : touch.act? e with _ | a
      · cases hcounts : touch.counts <;> simp [hcounts, hact]
      · have ha := Touch.counts_of_act? hact
        cases hcounts : touch.counts <;> simp [hcounts, hact, ha]

/-! ### The window does not matter -/

/-- The machines differ in their windows at most. -/
structure Alike (m m' : EndlessMachine) : Prop where
  program : m.program = m'.program
  cells : m.tape.cells = m'.tape.cells
  head : m.tape.head = m'.tape.head
  ip : m.ip = m'.ip
  output : m.output = m'.output
  terminated : m.terminated = m'.terminated
  stepCount : m.stepCount = m'.stepCount

namespace Alike

variable {m m' n : EndlessMachine}

theorem refl (m : EndlessMachine) : m.Alike m :=
  ⟨rfl, rfl, rfl, rfl, rfl, rfl, rfl⟩

theorem symm (h : m.Alike m') : m'.Alike m :=
  ⟨h.program.symm, h.cells.symm, h.head.symm, h.ip.symm, h.output.symm, h.terminated.symm,
    h.stepCount.symm⟩

theorem trans (h : m.Alike m') (h' : m'.Alike n) : m.Alike n :=
  ⟨h.program.trans h'.program, h.cells.trans h'.cells, h.head.trans h'.head, h.ip.trans h'.ip,
    h.output.trans h'.output, h.terminated.trans h'.terminated, h.stepCount.trans h'.stepCount⟩

theorem read_eq (h : m.Alike m') : m.tape.read = m'.tape.read := by
  unfold Endless.read
  rw [h.cells, h.head]

/-- A command does the same to the cells and the head, whatever the window. -/
theorem effect (h : m.Alike m') (c : Command) :
    (m.tape.effect c).cells = (m'.tape.effect c).cells ∧
      (m.tape.effect c).head = (m'.tape.effect c).head := by
  cases c with
  | increment | decrement =>
      simp only [Endless.effect, Endless.write, h.cells, h.head, h.read_eq, and_self]
  | right | left => simp [Endless.effect, h.cells, h.head]
  | print | opening | closing | comment => exact ⟨h.cells, h.head⟩

theorem printed_eq (h : m.Alike m') (c : Command) : m.tape.printed c = m'.tape.printed c := by
  cases c with
  | print => rw [Endless.printed, Endless.printed, h.read_eq]
  | _ => rfl

theorem jump?_eq (h : m.Alike m') (c : Command) : m.jump? c = m'.jump? c := by
  cases c with
  | closing => rw [jump?, jump?, h.read_eq, h.program, h.ip]
  | _ => rfl

/-- A step does not look at the window. -/
theorem step (h : m.Alike m') : m.step.Alike m'.step := by
  have hcommand : m.program.commandAt? m.ip = m'.program.commandAt? m'.ip := by
    rw [h.program, h.ip]
  rcases hc : m'.program.commandAt? m'.ip with _ | c
  · rw [step_of_outside (hcommand.trans hc), step_of_outside hc]
    exact ⟨h.program, h.cells, h.head, h.ip, h.output, rfl, h.stepCount⟩
  have hjump := h.jump?_eq c
  rcases hj : m'.jump? c with _ | target
  · obtain ⟨hcells, hhead⟩ := h.effect c
    rw [step_of_fallthrough (hcommand.trans hc) (hjump.trans hj), step_of_fallthrough hc hj]
    refine ⟨h.program, hcells, hhead, ?_, ?_, ?_, ?_⟩
    · simp only [h.ip]
    · simp only [h.output, h.printed_eq c]
    · simp only [h.terminated, h.program, h.ip]
    · simp only [h.stepCount]
  · rw [step_of_jump (hcommand.trans hc) (hjump.trans hj), step_of_jump hc hj]
    refine ⟨h.program, h.cells, h.head, rfl, h.output, h.terminated, ?_⟩
    simp only [h.stepCount]

/-- No act looks at the window. -/
theorem perform (h : m.Alike m') (a : Act) : (m.perform a).Alike (m'.perform a) := by
  cases a with
  | step => exact h.step
  | widenLeft | widenRight =>
      exact ⟨h.program, h.cells, h.head, h.ip, h.output, h.terminated, h.stepCount⟩
  | write value =>
      refine ⟨h.program, ?_, h.head, h.ip, h.output, h.terminated, h.stepCount⟩
      simp only [EndlessMachine.perform, Endless.write, h.cells, h.head]
  | writeAt x value =>
      refine ⟨h.program, ?_, h.head, h.ip, h.output, h.terminated, h.stepCount⟩
      simp only [EndlessMachine.perform, Endless.write, h.cells]

/-- Widening the window changes nothing but the window. -/
theorem of_not_counts (m : EndlessMachine) {a : Act} (ha : a.counts = false) :
    (m.perform a).Alike m := by
  cases a with
  | widenLeft | widenRight => exact ⟨rfl, rfl, rfl, rfl, rfl, rfl, rfl⟩
  | step | write | writeAt => cases ha

/-- Widenings can be left out of a history. -/
theorem after_filter (h : m.Alike m') (acts : List Act) :
    (m.after acts).Alike (m'.after (acts.filter Act.counts)) := by
  induction acts generalizing m m' with
  | nil => exact h
  | cons a acts ih =>
      by_cases ha : a.counts = true
      · rw [List.filter_cons_of_pos ha]
        exact ih (h.perform a)
      · rw [List.filter_cons_of_neg ha]
        exact ih ((of_not_counts m (Bool.eq_false_iff.mpr ha)).trans h)

/-- **Histories that differ in widenings only leave machines that differ in their windows only.** -/
theorem after (m : EndlessMachine) {acts acts' : List Act}
    (h : acts.filter Act.counts = acts'.filter Act.counts) :
    (m.after acts).Alike (m.after acts') := by
  have hleft := (refl m).after_filter acts
  have hright := (refl m).after_filter acts'
  rw [h] at hleft
  exact hleft.trans hright.symm

end Alike

end EndlessMachine

end TapeMachine
