import TapeMachine.Proofs.Bracket.Matching

/-!
# Structured code

A program is a flat text, but its matched brackets nest, so it can be read as a tree. In the tree
each matched pair of brackets is one loop with a body, and every other character, an unmatched
bracket included, stands for itself. `Code.ofChars` reads a text in one pass, with a stack of the
code before each pending opening.

What it means for a tree to be the reading of a stretch of the text is said by `Code.Reads`, in
terms of the pairs that the program jumps along. The stack of the reading and the stack of the
bracket matcher stay in step (`Code.Stacked`), and so the tree of a text is its reading
(`Code.reads_ofChars`).
-/

namespace TapeMachine

/-- Structured code: commands that are executed for their effect alone, and loops. -/
inductive Code where
  | done
  | basic (command : Command) (rest : Code)
  | loop (body rest : Code)
deriving DecidableEq, Repr, Inhabited

namespace Code

/-- One code after the other. -/
def append : Code → Code → Code
  | done, after => after
  | basic c rest, after => basic c (rest.append after)
  | loop body rest, after => loop body (rest.append after)

/-! ### Reading a text -/

/-- Completes the code when the text has come to its end: the openings that are still pending have
no partner and stand for themselves. -/
def close : List Code → Code → Code
  | [], current => current
  | before :: outer, current => close outer (before.append (basic .opening current))

/-- Reads the rest of a text. The current code has been read since the innermost pending opening,
and each code on the stack before such an opening, the innermost first. -/
def readFrom (outer : List Code) (current : Code) : List Char → Code
  | [] => close outer current
  | c :: rest =>
    if c = '[' then
      readFrom (current :: outer) done rest
    else if c = ']' then
      match outer with
      | [] => readFrom [] (current.append (basic .closing done)) rest
      | before :: outer => readFrom outer (before.append (loop current done)) rest
    else
      readFrom outer (current.append (basic (Command.ofChar c) done)) rest

/-- The code of a text. -/
def ofChars (text : List Char) : Code :=
  readFrom [] done text

/-! ### What a reading is -/

/-- The code is the reading of the text from position `i` up to, and without, position `j`: a
matched pair of brackets is a loop, and whatever is not paired stands for itself. -/
inductive Reads (text : List Char) : (i j : Nat) → Code → Prop
  | done {i : Nat} : Reads text i i .done
  | basic {i j : Nat} {c : Char} {rest : Code} : text[i]? = some c → Bracket.Unpaired text i →
      Reads text (i + 1) j rest → Reads text i j (.basic (Command.ofChar c) rest)
  | loop {i k j : Nat} {body rest : Code} : (k, i) ∈ Bracket.pairs text →
      Reads text (i + 1) k body → Reads text (k + 1) j rest → Reads text i j (.loop body rest)

/-- Readings of adjacent stretches can be joined. -/
theorem Reads.append {text : List Char} {i j k : Nat} {before after : Code}
    (h : Reads text i j before) (hafter : Reads text j k after) :
    Reads text i k (before.append after) := by
  induction h with
  | done => exact hafter
  | basic hc hun _ ih => exact .basic hc hun (ih hafter)
  | loop hpair hbody _ _ ih => exact .loop hpair hbody (ih hafter)

/-- A reading goes from left to right. -/
theorem Reads.le {text : List Char} {i j : Nat} {code : Code} (h : Reads text i j code) :
    i ≤ j := by
  induction h with
  | done => exact Nat.le_refl _
  | basic _ _ _ ih => omega
  | loop _ _ _ ihbody ihrest => omega

/-- A stretch has one reading at most. -/
theorem Reads.unique {text : List Char} {i j : Nat} {a b : Code} (ha : Reads text i j a)
    (hb : Reads text i j b) : a = b := by
  induction ha generalizing b with
  | done =>
      cases hb with
      | done => rfl
      | basic _ _ hrest =>
          have := hrest.le
          omega
      | loop _ hbody hrest =>
          have := hbody.le
          have := hrest.le
          omega
  | basic hc hun hrest ih =>
      cases hb with
      | done =>
          have := hrest.le
          omega
      | basic hc' _ hrest' =>
          rw [hc] at hc'
          cases hc'
          rw [ih hrest']
      | loop hpair _ _ => exact absurd rfl (hun _ hpair).2
  | loop hpair hbody hrest ihbody ihrest =>
      cases hb with
      | done =>
          have := hbody.le
          have := hrest.le
          omega
      | basic _ hun _ => exact absurd rfl (hun _ hpair).2
      | loop hpair' hbody' hrest' =>
          obtain rfl := Bracket.closing_unique hpair hpair'
          rw [ihbody hbody', ihrest hrest']

/-- The stack of codes belongs to the stack of pending openings: each code reads the stretch before
its opening, and the current code starts at position `i`. -/
inductive Stacked (text : List Char) : List Code → List Nat → (i : Nat) → Prop
  | nil : Stacked text [] [] 0
  | cons {outer : List Code} {pending : List Nat} {i o : Nat} {before : Code} :
      Reads text i o before → Stacked text outer pending i →
      Stacked text (before :: outer) (o :: pending) (o + 1)

section reading

variable {text rest : List Char} {outer : List Code} {current : Code} {pending : List Nat}
  {found : List (Nat × Nat)} {start i : Nat}

/-- At the end of the text, with the openings that are pending unpaired, closing gives the reading
of the whole. -/
theorem reads_close (hstack : Stacked text outer pending start)
    (hcurrent : Reads text start i current)
    (hopen : ∀ o ∈ pending, text[o]? = some '[' ∧ Bracket.Unpaired text o) :
    Reads text 0 i (close outer current) := by
  induction hstack generalizing current with
  | nil => exact hcurrent
  | @cons outer pending start o before hbefore _ ih =>
      obtain ⟨hchar, hun⟩ := hopen o List.mem_cons_self
      refine ih ?_ fun o' ho' => hopen o' (List.mem_cons_of_mem o ho')
      exact hbefore.append (.basic hchar hun hcurrent)

/-- **The pass of the reading follows the pass of the matcher.** From every position where their
stacks belong together, it goes on to the reading of the whole text. -/
theorem reads_readFrom (hscan : Bracket.Scan text i pending found rest)
    (hstack : Stacked text outer pending start) (hcurrent : Reads text start i current) :
    Reads text 0 (i + rest.length) (readFrom outer current rest) := by
  induction rest generalizing outer current pending found start i with
  | nil =>
      have hall : Bracket.pairs text = found := by
        simpa [Bracket.pairsFrom] using hscan.pairs_eq
      rw [← hall] at hscan
      refine reads_close hstack hcurrent fun o ho => ?_
      exact ⟨hscan.pending_brackets o ho, hscan.unpaired_pending ho⟩
  | cons c rest ih =>
      have hlength : i + (c :: rest).length = i + 1 + rest.length := by
        rw [List.length_cons]
        omega
      rw [hlength]
      by_cases hopen : c = '['
      · subst hopen
        exact ih hscan.opening (.cons hcurrent hstack) .done
      by_cases hclose : c = ']'
      · subst hclose
        cases hstack with
        | nil =>
            have hone : Reads text i (i + 1) (.basic (Command.ofChar ']') .done) :=
              .basic hscan.getElem? hscan.unpaired_stray .done
            exact ih hscan.stray .nil (hcurrent.append hone)
        | @cons outer pending start o before hbefore hstack =>
            have hpair : (i, o) ∈ Bracket.pairs text := by
              rw [hscan.closing.pairs_eq]
              simp
            have hloop : Reads text o (i + 1) (.loop current .done) :=
              .loop hpair hcurrent .done
            exact ih hscan.closing hstack (hbefore.append hloop)
      · have hone : Reads text i (i + 1) (.basic (Command.ofChar c) .done) :=
          .basic hscan.getElem? (Bracket.unpaired_of_other hscan.getElem? hopen hclose) .done
        have hrest := ih (hscan.other hopen hclose) hstack (hcurrent.append hone)
        simpa only [readFrom, if_neg hopen, if_neg hclose] using hrest

end reading

/-- The code of a text is its reading from the first position to the last. -/
theorem reads_ofChars (text : List Char) : Reads text 0 text.length (ofChars text) := by
  have h := reads_readFrom (Bracket.Scan.start text) .nil .done
  rwa [Nat.zero_add] at h

-- brackets without a partner stand for themselves, also around a loop
example : ofChars [']', '[', '+', '[', '-', ']'] =
    .basic .closing (.basic .opening (.basic .increment
      (.loop (.basic .decrement .done) .done))) := by
  decide

end Code

end TapeMachine
