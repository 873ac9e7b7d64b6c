import Mathlib.Data.List.Forall2

/-!
# Dialogues

A dialogue is a history of requests with their results. Some requests may be such that it makes no
difference to all others whether, where and how often they are made. For a whole history this
follows from what holds of a single request: `Dialogue.Hides` lists it, and
`Dialogue.Hides.invisible` draws the conclusion.
-/

namespace TapeMachine

variable {State Request Result : Type}

/-- Requests that are answered one after the other lead from one state to another. -/
inductive Dialogue (answers : State → Request → Result → State → Prop) :
    State → List (Request × Result) → State → Prop
  | nil (s : State) : Dialogue answers s [] s
  | cons {s u t : State} {request : Request} {result : Result} {rest : List (Request × Result)} :
      answers s request result u → Dialogue answers u rest t →
      Dialogue answers s ((request, result) :: rest) t

namespace Dialogue

variable {answers : State → Request → Result → State → Prop} {counts : Request → Bool}
  {Same : Result → Result → Prop} {Alike : State → State → Prop} {s t u v : State}
  {xs ys : List (Request × Result)} {requests : List Request}

theorem append (h : Dialogue answers s xs t) (h' : Dialogue answers t ys u) :
    Dialogue answers s (xs ++ ys) u := by
  induction h with
  | nil s => exact h'
  | cons hanswer _ ih => exact .cons hanswer (ih h')

/-- From a state on, requests that do not count do not show: if they are put into a dialogue or left
out, it can still be had, the other requests have the same results, and the states at the end are
alike. -/
def Invisible (answers : State → Request → Result → State → Prop) (counts : Request → Bool)
    (Same : Result → Result → Prop) (Alike : State → State → Prop) (s : State) : Prop :=
  ∀ xs t, Dialogue answers s xs t →
    (∀ requests, requests.filter counts = (xs.map Prod.fst).filter counts →
      ∃ ys u, Dialogue answers s ys u ∧ ys.map Prod.fst = requests) ∧
    ∀ ys u, Dialogue answers s ys u →
      (ys.map Prod.fst).filter counts = (xs.map Prod.fst).filter counts →
      List.Forall₂ (fun x y => x.1 = y.1 ∧ Same x.2 y.2) (xs.filter fun x => counts x.1)
        (ys.filter fun y => counts y.1) ∧ Alike t u

/-- What has to be known about single requests. -/
structure Hides (answers : State → Request → Result → State → Prop) (counts : Request → Bool)
    (Same : Result → Result → Prop) (Alike : State → State → Prop) : Prop where
  /-- A request is answered in one way only. -/
  unique : ∀ {s t u request result result'}, answers s request result t →
    answers s request result' u → result = result' ∧ t = u
  /-- States that are alike give the same results and stay alike. -/
  follow : ∀ {s t u request result}, Alike s t → answers s request result u →
    ∃ result' v, answers t request result' v ∧ Same result result' ∧ Alike u v
  /-- What does not count changes nothing that shows. -/
  skip : ∀ {s t u request result}, counts request = false → Alike s t →
    answers s request result u → Alike u t
  /-- What does not count is answered, and changes nothing that shows. -/
  insert : ∀ {s t request}, counts request = false → Alike s t →
    ∃ result u, answers t request result u ∧ Alike s u

namespace Hides

/-- A dialogue is told by its requests. -/
theorem dialogue_unique (h : Hides answers counts Same Alike) (hx : Dialogue answers s xs t)
    (hy : Dialogue answers s ys u) (hrequests : xs.map Prod.fst = ys.map Prod.fst) :
    xs = ys ∧ t = u := by
  induction hx generalizing ys with
  | nil s =>
      cases hy with
      | nil => exact ⟨rfl, rfl⟩
      | cons => cases hrequests
  | cons hanswer _ ih =>
      cases hy with
      | nil => cases hrequests
      | cons hanswer' hrest =>
          rw [List.map_cons, List.map_cons, List.cons_eq_cons] at hrequests
          obtain ⟨hfirst, hrequests⟩ := hrequests
          cases hfirst
          obtain ⟨rfl, rfl⟩ := h.unique hanswer hanswer'
          obtain ⟨rfl, rfl⟩ := ih hrest hrequests
          exact ⟨rfl, rfl⟩

/-- Requests that do not count can be made in any number. -/
theorem exists_dialogue_of_skips (h : Hides answers counts Same Alike)
    (hrequests : ∀ request ∈ requests, ¬ counts request = true) (halike : Alike s t) :
    ∃ ys u, Dialogue answers t ys u ∧ ys.map Prod.fst = requests ∧
      (ys.filter fun y => counts y.1) = [] ∧ Alike s u := by
  induction requests generalizing t with
  | nil => exact ⟨[], t, .nil t, rfl, rfl, halike⟩
  | cons request rest ih =>
      have hskips : counts request = false :=
        Bool.eq_false_iff.mpr (hrequests request List.mem_cons_self)
      obtain ⟨result, u, hanswer, hu⟩ := h.insert hskips halike
      obtain ⟨ys, v, hys, rfl, hfilter, hv⟩ :=
        ih (fun r hr => hrequests r (List.mem_cons_of_mem _ hr)) hu
      refine ⟨(request, result) :: ys, v, .cons hanswer hys, rfl, ?_, hv⟩
      rw [List.filter_cons_of_neg (by simp [hskips]), hfilter]

/-- **A dialogue can be had with other requests that do not count**, from a state that is alike. -/
theorem exists_dialogue (h : Hides answers counts Same Alike) (hx : Dialogue answers s xs u)
    (halike : Alike s t)
    (hrequests : requests.filter counts = (xs.map Prod.fst).filter counts) :
    ∃ ys v, Dialogue answers t ys v ∧ ys.map Prod.fst = requests ∧
      List.Forall₂ (fun x y => x.1 = y.1 ∧ Same x.2 y.2) (xs.filter fun x => counts x.1)
        (ys.filter fun y => counts y.1) ∧ Alike u v := by
  induction hx generalizing t requests with
  | nil s =>
      obtain ⟨ys, v, hys, hmap, hfilter, hv⟩ :=
        h.exists_dialogue_of_skips (List.filter_eq_nil_iff.mp hrequests) halike
      refine ⟨ys, v, hys, hmap, ?_, hv⟩
      rw [hfilter]
      exact .nil
  | @cons s s' u request result rest hanswer _ ih =>
      by_cases hcounts : counts request = true
      · -- the requests up to the next one that counts are put in
        rw [List.map_cons, List.filter_cons_of_pos hcounts] at hrequests
        obtain ⟨pre, post, rfl, hpre, -, hpost⟩ := List.filter_eq_cons_iff.mp hrequests
        obtain ⟨ys, t', hys, rfl, hfilter, ht'⟩ := h.exists_dialogue_of_skips hpre halike
        obtain ⟨result', t'', hanswer', hsame, ht''⟩ := h.follow ht' hanswer
        obtain ⟨zs, v, hzs, rfl, hresults, hv⟩ := ih ht'' hpost
        refine ⟨ys ++ (request, result') :: zs, v, hys.append (.cons hanswer' hzs), ?_, ?_, hv⟩
        · rw [List.map_append, List.map_cons]
        · simp only [List.filter_append, hfilter, List.filter_cons, hcounts, if_true,
            List.nil_append]
          exact .cons ⟨rfl, hsame⟩ hresults
      · have hskips : counts request = false := Bool.eq_false_iff.mpr hcounts
        rw [List.map_cons, List.filter_cons_of_neg hcounts] at hrequests
        obtain ⟨ys, v, hys, hmap, hresults, hv⟩ := ih (h.skip hskips halike hanswer) hrequests
        refine ⟨ys, v, hys, hmap, ?_, hv⟩
        simp only [List.filter_cons, hskips, Bool.false_eq_true, if_false]
        exact hresults

/-- **Requests that are hidden one by one are invisible in every dialogue.** -/
theorem invisible (h : Hides answers counts Same Alike) (hs : Alike s s) :
    Invisible answers counts Same Alike s := by
  intro xs t hx
  refine ⟨?_, ?_⟩
  · intro requests hrequests
    obtain ⟨ys, u, hys, hmap, -, -⟩ := h.exists_dialogue hx hs hrequests
    exact ⟨ys, u, hys, hmap⟩
  · intro ys u hy hrequests
    obtain ⟨zs, v, hzs, hmap, hresults, hv⟩ := h.exists_dialogue hx hs hrequests
    obtain ⟨rfl, rfl⟩ := h.dialogue_unique hzs hy hmap
    exact ⟨hresults, hv⟩

end Hides

end Dialogue

end TapeMachine
