/-
  TilePaint/Proofs/BarrierCalls.lean
  ==================================
  **A barrier whose calls overlap.**

  Elsewhere an arrival is one step (`Barrier.arrive`).  In truth it has up to three:
  the number of outstanding arrivals is lowered, the call that brings it to zero takes
  the callback out of the barrier, and then it runs it (`arrive_eq_lower`).  Between
  these steps others may come, from any number of calls through any handles.  The
  callback may make calls as well, may never come back, and may give up.

  A `BarrierSession` is a barrier together with all calls made to it.  The construction
  is the first of them, since a barrier for no arrivals fires in it.

  Which arrivals are accepted depends on their order alone, and only the order in which
  they lower the number counts (`accepted`).  The rest is one invariant (`Counted`):
  made one after the other in this order, the calls leave the same barrier, and the one
  of them that fires it (`closers`) is the one that runs the callback here.
-/
import TilePaint.Proofs.BatchAccounts
import Mathlib.Data.List.Induction
import Mathlib.Algebra.BigOperators.Group.Multiset.Basic
import Mathlib.Algebra.Order.BigOperators.Group.Multiset
import Mathlib.Algebra.Order.Group.Nat

namespace TilePaint

/-! ## 1. The steps of a call -/

namespace Barrier

/-- Lower the number of outstanding arrivals.  The answer is whether it has come to
    zero by that. -/
def lower (b : Barrier) (n : Nat) : Barrier × Bool :=
  if n = 0 ∨ b.remaining < n then (b, false)
  else ({ b with remaining := b.remaining - n }, decide (n = b.remaining))

theorem arrive_eq_lower (b : Barrier) (n : Nat) :
    b.arrive n = if (b.lower n).2 then (b.lower n).1.fire else ((b.lower n).1, false) := by
  unfold arrive lower
  by_cases hrefused : n = 0 ∨ b.remaining < n
  · simp only [if_pos hrefused, Bool.false_eq_true, if_false]
  · have hlast : b.remaining - n = 0 ↔ n = b.remaining := by omega
    simp only [if_neg hrefused, hlast, decide_eq_true_eq]

theorem lower_of_refused {b : Barrier} {n : Nat} (h : n = 0 ∨ b.remaining < n) :
    b.lower n = (b, false) := if_pos h

theorem lower_of_accepted {b : Barrier} {n : Nat} (h : ¬(n = 0 ∨ b.remaining < n)) :
    b.lower n = ({ b with remaining := b.remaining - n }, decide (n = b.remaining)) := if_neg h

/-- Arrivals that are none, or more than are waited for, change nothing. -/
theorem arrive_refused {b : Barrier} {n : Nat} (h : n = 0 ∨ b.remaining < n) :
    b.arrive n = (b, false) := if_pos h

end Barrier

/-- How far a call has come. -/
inductive BarrierCall where
  /-- About to lower the number of outstanding arrivals. -/
  | arriving (arrivals : Nat)
  /-- It brought the number to zero, and is about to take the callback. -/
  | firing
  | inCallback
  | returned
  /-- The callback gave up, and the call with it. -/
  | raised
deriving DecidableEq, Repr

/-- A call that has lowered the number, or was refused. -/
structure Arrival where
  call : Nat
  arrivals : Nat
deriving DecidableEq, Repr

/-- A barrier and the calls made to it. -/
structure BarrierSession where
  barrier : Barrier
  /-- All calls, through any handle.  The first one is the construction. -/
  calls : Array BarrierCall
  /-- The arrivals, in the order in which they were counted. -/
  arrived : List Arrival
  /-- The calls that ran the callback. -/
  ran : List Nat
deriving DecidableEq, Repr

inductive BarrierAction where
  | call (arrivals : Nat)
  | lower (k : Nat)
  | fire (k : Nat)
  | endCallback (k : Nat) (raises : Bool)

namespace BarrierSession

/-- The barrier is made.  If it waits for nothing, the construction has to fire it. -/
def start (count : Nat) : BarrierSession where
  barrier := ⟨count, false⟩
  calls := #[if count = 0 then .firing else .returned]
  arrived := []
  ran := []

def setCall (s : BarrierSession) (k : Nat) (call : BarrierCall) : BarrierSession :=
  { s with calls := s.calls.setIfInBounds k call }

/-- One action, if it can be taken.  There is a handle to make calls through once the
    construction has returned. -/
def act (s : BarrierSession) : BarrierAction → Option BarrierSession
  | .call n =>
      if s.calls[0]? = some .returned then some { s with calls := s.calls.push (.arriving n) }
      else none
  | .lower k =>
      match s.calls[k]? with
      | some (.arriving n) =>
          let (barrier, last) := s.barrier.lower n
          let s := s.setCall k (if last then .firing else .returned)
          some { s with barrier, arrived := s.arrived ++ [⟨k, n⟩] }
      | _ => none
  | .fire k =>
      match s.calls[k]? with
      | some .firing =>
          match s.barrier.fire with
          | (barrier, true) => some { s.setCall k .inCallback with barrier, ran := s.ran ++ [k] }
          | (barrier, false) => some { s.setCall k .returned with barrier }
      | _ => none
  | .endCallback k raises =>
      match s.calls[k]? with
      | some .inCallback => some (s.setCall k (if raises then .raised else .returned))
      | _ => none

abbrev Run : BarrierSession → BarrierSession → Prop :=
  Relation.ReflTransGen fun s s' => ∃ a, s.act a = some s'

/-- A session with a barrier for `count` arrivals. -/
def Reachable (count : Nat) (s : BarrierSession) : Prop := Run (start count) s

variable {s s' : BarrierSession} {a : BarrierAction} {count k n : Nat}

/-- What an action does. -/
inductive Acts (s : BarrierSession) : BarrierSession → Prop where
  | called {n : Nat} : Acts s { s with calls := s.calls.push (.arriving n) }
  | refused {k n : Nat} (hcall : s.calls[k]? = some (.arriving n))
      (hrefused : n = 0 ∨ s.barrier.remaining < n) :
      Acts s { s.setCall k .returned with arrived := s.arrived ++ [⟨k, n⟩] }
  | accepted {k n : Nat} (hcall : s.calls[k]? = some (.arriving n))
      (haccepted : ¬(n = 0 ∨ s.barrier.remaining < n)) :
      Acts s
        { s.setCall k (if n = s.barrier.remaining then .firing else .returned) with
          barrier := { s.barrier with remaining := s.barrier.remaining - n }
          arrived := s.arrived ++ [⟨k, n⟩] }
  | fired {k : Nat} (hcall : s.calls[k]? = some .firing) (hfull : s.barrier.fired = false) :
      Acts s
        { s.setCall k .inCallback with
          barrier := { s.barrier with fired := true }, ran := s.ran ++ [k] }
  | spent {k : Nat} (hcall : s.calls[k]? = some .firing) (hempty : s.barrier.fired = true) :
      Acts s (s.setCall k .returned)
  | ended {k : Nat} {call : BarrierCall} (hcall : s.calls[k]? = some .inCallback)
      (hends : call ≠ .firing) : Acts s (s.setCall k call)

theorem act_lower_of_refused (hcall : s.calls[k]? = some (.arriving n))
    (h : n = 0 ∨ s.barrier.remaining < n) :
    s.act (.lower k) =
      some { s.setCall k .returned with arrived := s.arrived ++ [⟨k, n⟩] } := by
  simp only [act, hcall, Barrier.lower_of_refused h]
  rfl

theorem act_lower_of_accepted (hcall : s.calls[k]? = some (.arriving n))
    (h : ¬(n = 0 ∨ s.barrier.remaining < n)) :
    s.act (.lower k) = some
      { s.setCall k (if n = s.barrier.remaining then .firing else .returned) with
        barrier := { s.barrier with remaining := s.barrier.remaining - n }
        arrived := s.arrived ++ [⟨k, n⟩] } := by
  simp only [act, hcall, Barrier.lower_of_accepted h, decide_eq_true_eq]
  rfl

theorem act_fire (hcall : s.calls[k]? = some .firing) (hfull : s.barrier.fired = false) :
    s.act (.fire k) = some
      { s.setCall k .inCallback with
        barrier := { s.barrier with fired := true }, ran := s.ran ++ [k] } := by
  simp only [act, hcall, Barrier.fire, hfull, Bool.not_false]

/-- **One action**, inverted. -/
theorem act_cases (h : s.act a = some s') : s.Acts s' := by
  cases a with
  | call n =>
    simp only [act, Option.ite_none_right_eq_some, Option.some.injEq] at h
    obtain ⟨-, rfl⟩ := h
    exact .called
  | lower k =>
    cases hcall : s.calls[k]? with
    | none => simp only [act, hcall, reduceCtorEq] at h
    | some call =>
      cases call with
      | arriving n =>
        by_cases hrefused : n = 0 ∨ s.barrier.remaining < n
        · rw [act_lower_of_refused hcall hrefused] at h
          cases h
          exact .refused hcall hrefused
        · rw [act_lower_of_accepted hcall hrefused] at h
          cases h
          exact .accepted hcall hrefused
      | _ => simp only [act, hcall, reduceCtorEq] at h
  | fire k =>
    cases hcall : s.calls[k]? with
    | none => simp only [act, hcall, reduceCtorEq] at h
    | some call =>
      cases call with
      | firing =>
        cases hfull : s.barrier.fired with
        | false =>
          rw [act_fire hcall hfull] at h
          cases h
          exact .fired hcall hfull
        -- the barrier has fired already, so firing again changes nothing
        | true =>
          simp only [act, hcall, Barrier.fire, hfull, Bool.not_true, Option.some.injEq] at h
          subst h
          rw [← hfull]
          exact .spent hcall hfull
      | _ => simp only [act, hcall, reduceCtorEq] at h
  | endCallback k raises =>
    cases hcall : s.calls[k]? with
    | none => simp only [act, hcall, reduceCtorEq] at h
    | some call =>
      cases call with
      | inCallback =>
        simp only [act, hcall, Option.some.injEq] at h
        subst h
        refine .ended hcall ?_
        cases raises <;> decide
      | _ => simp only [act, hcall, reduceCtorEq] at h

theorem getElem?_setCall (hcall : s.calls[k]?.isSome) (call : BarrierCall) (j : Nat) :
    (s.setCall k call).calls[j]? = if j = k then some call else s.calls[j]? := by
  have hk : k < s.calls.size := by
    rw [isSome_getElem?] at hcall
    exact hcall
  rw [setCall, Array.getElem?_setIfInBounds]
  by_cases hj : j = k
  · rw [if_pos hj.symm, if_pos hj, if_pos hk]
  · rw [if_neg (Ne.symm hj), if_neg hj]

end BarrierSession

/-! ## 2. Calls one after the other -/

section Arrivals

variable {count left : Nat} {as : List Arrival}

def total : List Arrival → Nat
  | [] => 0
  | a :: as => a.arrivals + total as

theorem total_eq_sum (as : List Arrival) :
    total as = (as.map Arrival.arrivals : Multiset Nat).sum := by
  induction as with
  | nil => rfl
  | cons a as ih =>
    rw [total, ih, List.map_cons, ← Multiset.cons_coe, Multiset.sum_cons]

theorem total_concat (as : List Arrival) (a : Arrival) :
    total (as ++ [a]) = total as + a.arrivals := by
  induction as with
  | nil => exact Nat.add_comm _ _
  | cons b as ih => rw [List.cons_append, total, ih, total, Nat.add_assoc]

/-- The arrivals that are accepted where `left` are outstanding.  Those of one call are
    refused as a whole if they are more. -/
def accepted (left : Nat) : List Arrival → List Arrival
  | [] => []
  | a :: as =>
      if a.arrivals = 0 ∨ left < a.arrivals then accepted left as
      else a :: accepted (left - a.arrivals) as

theorem total_accepted_le (left : Nat) (as : List Arrival) : total (accepted left as) ≤ left := by
  induction as generalizing left with
  | nil => exact Nat.zero_le _
  | cons a as ih =>
    rw [accepted]
    split
    · exact ih left
    · have hrest := ih (left - a.arrivals)
      rw [total]
      omega

theorem accepted_append (left : Nat) (as bs : List Arrival) :
    accepted left (as ++ bs) =
      accepted left as ++ accepted (left - total (accepted left as)) bs := by
  induction as generalizing left with
  | nil => rfl
  | cons a as ih =>
    rw [List.cons_append, accepted, accepted]
    split
    · exact ih left
    · rw [ih, List.cons_append, total, Nat.sub_sub]

/-- Arrivals that are not too many together are all accepted. -/
theorem accepted_eq_self (hpos : ∀ a ∈ as, 0 < a.arrivals) (h : total as ≤ left) :
    accepted left as = as := by
  induction as generalizing left with
  | nil => rfl
  | cons a as ih =>
    have ha := hpos a (List.mem_cons_self ..)
    rw [total] at h
    rw [accepted, if_neg (by omega), ih (fun b hb => hpos b (List.mem_cons_of_mem _ hb)) (by omega)]

/-- The call that brings the number of outstanding arrivals to zero, if one does: the last
    one that is accepted, or the construction if there are none to accept. -/
def closer? (count : Nat) (as : List Arrival) : Option Nat :=
  if total (accepted count as) = count then
    some (((accepted count as).getLast?.map Arrival.call).getD 0)
  else none

theorem isSome_closer?_iff : (closer? count as).isSome ↔ total (accepted count as) = count := by
  unfold closer?
  split <;> simp only [*, Option.isSome_some, Option.isSome_none, Bool.false_eq_true]

theorem accepted_concat_of_refused {a : Arrival}
    (h : a.arrivals = 0 ∨ count - total (accepted count as) < a.arrivals) :
    accepted count (as ++ [a]) = accepted count as := by
  rw [accepted_append, accepted, if_pos h, accepted, List.append_nil]

theorem accepted_concat_of_accepted {a : Arrival}
    (h : ¬(a.arrivals = 0 ∨ count - total (accepted count as) < a.arrivals)) :
    accepted count (as ++ [a]) = accepted count as ++ [a] := by
  rw [accepted_append, accepted, if_neg h, accepted]

/-- A further call closes the barrier if it makes all the arrivals that remain. -/
theorem closer?_concat_of_accepted {a : Arrival}
    (h : ¬(a.arrivals = 0 ∨ count - total (accepted count as) < a.arrivals)) :
    closer? count as = none ∧ closer? count (as ++ [a]) =
      if a.arrivals = count - total (accepted count as) then some a.call else none := by
  have hle := total_accepted_le count as
  refine ⟨if_neg (by omega), ?_⟩
  simp only [closer?, accepted_concat_of_accepted h, total_concat, List.getLast?_concat,
    Option.map_some, Option.getD_some]
  by_cases hcloses : a.arrivals = count - total (accepted count as)
  · rw [if_pos hcloses, if_pos (by omega)]
  · rw [if_neg hcloses, if_neg (by omega)]

/-- One more call at a barrier, together with the calls in which it has fired. -/
def arriveNext (fired : Barrier × List Nat) (a : Arrival) : Barrier × List Nat :=
  match fired.1.arrive a.arrivals with
  | (b, true) => (b, fired.2 ++ [a.call])
  | (b, false) => (b, fired.2)

/-- A barrier at which some calls arrive one after the other, and those of them, and of the
    construction, in which it fires. -/
def inTurn (count : Nat) (as : List Arrival) : Barrier × List Nat :=
  let (made, fires) := Barrier.ofCount count
  as.foldl arriveNext (made, if fires then [0] else [])

theorem inTurn_nil (count : Nat) :
    inTurn count [] = (.counting count, (closer? count []).toList) := by
  simp only [inTurn, Barrier.ofCount_eq, List.foldl_nil, closer?, accepted, total,
    decide_eq_true_eq, eq_comm (a := 0)]
  split <;> rfl

theorem inTurn_concat (count : Nat) (as : List Arrival) (a : Arrival) :
    inTurn count (as ++ [a]) = arriveNext (inTurn count as) a := by
  simp only [inTurn, List.foldl_append, List.foldl_cons, List.foldl_nil]

/-- **Calls one after the other**: the barrier counts what it accepts, and it fires in the
    call that closes it. -/
theorem inTurn_eq (count : Nat) (as : List Arrival) :
    inTurn count as =
      (.counting (count - total (accepted count as)), (closer? count as).toList) := by
  induction as using List.reverseRecOn with
  | nil => exact inTurn_nil count
  | append_singleton as a ih =>
    rw [inTurn_concat, ih, arriveNext]
    by_cases hrefused : a.arrivals = 0 ∨ count - total (accepted count as) < a.arrivals
    · simp only [Barrier.arrive_refused (b := .counting _) hrefused, closer?,
        accepted_concat_of_refused hrefused]
    · obtain ⟨hopen, hcloser⟩ := closer?_concat_of_accepted hrefused
      have hle : a.arrivals ≤ count - total (accepted count as) := by omega
      have hpos : 0 < a.arrivals := by omega
      rw [Barrier.arrive_counting hle, accepted_concat_of_accepted hrefused, hopen, hcloser,
        total_concat, ← Nat.sub_sub]
      by_cases hcloses : a.arrivals = count - total (accepted count as)
      · rw [if_pos hcloses, decide_eq_true ⟨hpos, hcloses⟩]
        rfl
      · rw [if_neg hcloses, decide_eq_false (fun h => hcloses h.2)]

theorem closer?_congr {as bs : List Arrival} (h : accepted count bs = accepted count as) :
    closer? count bs = closer? count as := by
  rw [closer?, closer?, h]

theorem total_of_closer? {k : Nat} (h : closer? count as = some k) :
    total (accepted count as) = count :=
  isSome_closer?_iff.mp (Option.isSome_of_eq_some h)

/-- Positive arrivals that make up the number together: the last call closes the barrier,
    whatever their order, and none before it. -/
theorem closer?_of_le {m : Multiset Nat} (hpos : ∀ n ∈ m, 0 < n) (hsum : m.sum = count)
    (h : (as.map Arrival.arrivals : Multiset Nat) ≤ m) :
    closer? count as =
      if (as.map Arrival.arrivals : Multiset Nat) = m then
        some ((as.getLast?.map Arrival.call).getD 0)
      else none := by
  obtain ⟨rest, rfl⟩ := Multiset.le_iff_exists_add.mp h
  have hcount : total as + rest.sum = count := by
    rw [← hsum, Multiset.sum_add, total_eq_sum]
  have hall : accepted count as = as := by
    refine accepted_eq_self (fun a ha => hpos _ ?_) (by omega)
    exact Multiset.mem_add.mpr (Or.inl (Multiset.mem_coe.mpr (List.mem_map_of_mem ha)))
  rw [closer?, hall]
  by_cases hrest : rest = 0
  · subst hrest
    rw [Multiset.sum_zero] at hcount
    rw [if_pos (by omega), if_pos (add_zero _).symm]
  · obtain ⟨n, hn⟩ := Multiset.exists_mem_of_ne_zero hrest
    have hn' := hpos n (Multiset.mem_add.mpr (Or.inr hn))
    have hle := Multiset.le_sum_of_mem hn
    rw [if_neg (by omega), if_neg (fun h => hrest (left_eq_add.mp h))]

end Arrivals

/-! ## 3. Calls that overlap -/

namespace BarrierSession

variable {s s' : BarrierSession} {a : BarrierAction} {count k n : Nat}

/-- What the calls have come to so far. -/
structure Counted (count : Nat) (s : BarrierSession) : Prop where
  remaining : s.barrier.remaining + total (accepted count s.arrived) = count
  fired : s.barrier.fired = true → s.barrier.remaining = 0
  ran : s.ran = if s.barrier.fired then (closer? count s.arrived).toList else []
  firing : ∀ k : Nat, s.calls[k]? = some .firing →
    s.barrier.fired = false ∧ closer? count s.arrived = some k
  unfired : s.barrier.remaining = 0 → s.barrier.fired = false →
    ∃ k : Nat, s.calls[k]? = some .firing

theorem Counted.congr (h : s.Counted count) (hbarrier : s'.barrier = s.barrier)
    (hran : s'.ran = s.ran) (haccepted : accepted count s'.arrived = accepted count s.arrived)
    (hfiring : ∀ j : Nat, s'.calls[j]? = some .firing ↔ s.calls[j]? = some .firing) :
    s'.Counted count := by
  have hcloser := closer?_congr haccepted
  obtain ⟨hremaining, hfired, hran', hfiring', hunfired⟩ := h
  rw [← hbarrier] at hremaining hfired hran' hunfired
  refine ⟨?_, hfired, ?_, ?_, ?_⟩
  · rw [haccepted]
    exact hremaining
  · rw [hran, hcloser]
    exact hran'
  · intro k hk
    rw [hbarrier, hcloser]
    exact hfiring' k ((hfiring k).mp hk)
  · intro hzero hopen
    obtain ⟨k, hk⟩ := hunfired hzero hopen
    exact ⟨k, (hfiring k).mpr hk⟩

theorem firing_push (n j : Nat) :
    (s.calls.push (.arriving n))[j]? = some .firing ↔ s.calls[j]? = some .firing := by
  rw [Array.getElem?_push]
  split
  · next hj =>
    subst hj
    rw [Array.getElem?_eq_none (Nat.le_refl _)]
    exact iff_of_false nofun nofun
  · exact Iff.rfl

theorem firing_setCall {old new : BarrierCall} (hold : s.calls[k]? = some old)
    (hfrom : old ≠ .firing) (hto : new ≠ .firing) (j : Nat) :
    (s.setCall k new).calls[j]? = some .firing ↔ s.calls[j]? = some .firing := by
  rw [getElem?_setCall (Option.isSome_of_eq_some hold)]
  split
  · next hj =>
    subst hj
    rw [hold, Option.some.injEq, Option.some.injEq]
    exact iff_of_false hto hfrom
  · exact Iff.rfl

theorem Counted.remaining_eq (h : s.Counted count) :
    s.barrier.remaining = count - total (accepted count s.arrived) := by
  have := h.remaining
  omega

theorem counted_start (count : Nat) : (start count).Counted count := by
  have hcalls : ∀ k : Nat, (start count).calls[k]? = some .firing ↔ k = 0 ∧ count = 0 := by
    intro k
    cases k with
    | zero =>
      simp only [start, List.getElem?_toArray, List.getElem?_cons_zero, Option.some.injEq,
        true_and]
      split <;> simp only [*, reduceCtorEq]
    | succ k =>
      simp only [start, List.getElem?_toArray, List.getElem?_cons_succ, List.getElem?_nil,
        reduceCtorEq, Nat.add_one_ne_zero, false_and]
  refine ⟨rfl, nofun, rfl, ?_, ?_⟩
  · intro k hk
    obtain ⟨rfl, rfl⟩ := (hcalls k).mp hk
    exact ⟨rfl, rfl⟩
  · intro hzero _
    exact ⟨0, (hcalls 0).mpr ⟨rfl, hzero⟩⟩

/-- An accepted arrival lowers the number, and the call closes the barrier or not. -/
theorem Counted.accept (h : s.Counted count) (hcall : s.calls[k]? = some (.arriving n))
    (haccepted : ¬(n = 0 ∨ s.barrier.remaining < n)) :
    Counted count
      { s.setCall k (if n = s.barrier.remaining then .firing else .returned) with
        barrier := { s.barrier with remaining := s.barrier.remaining - n }
        arrived := s.arrived ++ [⟨k, n⟩] } := by
  have hremaining := h.remaining
  have hopen : s.barrier.fired = false := by
    refine Bool.eq_false_iff.mpr fun hfired => ?_
    have := h.fired hfired
    omega
  have hnew := haccepted
  rw [h.remaining_eq] at hnew
  -- until now no arrival has closed the barrier; this one does if it is the last
  obtain ⟨hbefore, hafter⟩ := closer?_concat_of_accepted (a := ⟨k, n⟩) hnew
  rw [← h.remaining_eq] at hafter
  have hcalls := getElem?_setCall (Option.isSome_of_eq_some hcall)
    (if n = s.barrier.remaining then .firing else .returned)
  refine ⟨?_, ?_, ?_, ?_, ?_⟩
  · have htotal : total (accepted count (s.arrived ++ [⟨k, n⟩])) =
        total (accepted count s.arrived) + n := by
      rw [accepted_concat_of_accepted (a := ⟨k, n⟩) hnew, total_concat]
    show s.barrier.remaining - n + total (accepted count (s.arrived ++ [⟨k, n⟩])) = count
    omega
  · intro hfired
    exact absurd (hopen.symm.trans hfired) Bool.false_ne_true
  · show s.ran = if s.barrier.fired then _ else []
    rw [h.ran, hopen]
    rfl
  · intro j hj
    have hj := (hcalls j).symm.trans hj
    split at hj
    · next hjk =>
      refine ⟨hopen, hafter.trans ?_⟩
      split at hj
      · next hlast => rw [if_pos hlast, hjk]
      · cases hj
    · -- no other call is about to fire, since none has closed the barrier before
      have := (h.firing j hj).2
      rw [hbefore] at this
      cases this
  · intro hzero _
    have hzero : s.barrier.remaining - n = 0 := hzero
    refine ⟨k, (hcalls k).trans ?_⟩
    rw [if_pos rfl, if_pos (by omega)]

/-- The call that runs the callback is the one that closed the barrier, and no other is
    about to run it. -/
theorem Counted.fire (h : s.Counted count) (hcall : s.calls[k]? = some .firing)
    (hfull : s.barrier.fired = false) :
    Counted count
      { s.setCall k .inCallback with
        barrier := { s.barrier with fired := true }, ran := s.ran ++ [k] } := by
  have hcloser := (h.firing k hcall).2
  have hremaining := h.remaining
  have htotal := total_of_closer? hcloser
  have hcalls := getElem?_setCall (Option.isSome_of_eq_some hcall) .inCallback
  refine ⟨hremaining, fun _ => ?_, ?_, ?_, nofun⟩
  · show s.barrier.remaining = 0
    omega
  · show s.ran ++ [k] = (closer? count s.arrived).toList
    rw [h.ran, hfull, hcloser]
    rfl
  · intro j hj
    have hj := (hcalls j).symm.trans hj
    split at hj
    · cases hj
    · next hjk =>
      have hother := (h.firing j hj).2
      rw [hcloser] at hother
      exact absurd (Option.some.inj hother).symm hjk

theorem Counted.step (h : s.Counted count) (hacts : s.Acts s') : s'.Counted count := by
  cases hacts with
  | called => exact h.congr rfl rfl rfl (firing_push _)
  | refused hcall hrefused =>
    rw [h.remaining_eq] at hrefused
    exact h.congr rfl rfl (accepted_concat_of_refused hrefused) (firing_setCall hcall nofun nofun)
  | accepted hcall haccepted => exact h.accept hcall haccepted
  | fired hcall hfull => exact h.fire hcall hfull
  | spent hcall hempty =>
    have hfull := (h.firing _ hcall).1
    exact absurd (hfull.symm.trans hempty) Bool.false_ne_true
  | ended hcall hends => exact h.congr rfl rfl rfl (firing_setCall hcall nofun hends)

theorem counted_of_reachable (h : Reachable count s) : s.Counted count := by
  induction h with
  | refl => exact counted_start count
  | tail _ hstep ih =>
    obtain ⟨a, hact⟩ := hstep
    exact ih.step (act_cases hact)

/-- Once a barrier has fired, nothing happens to it any more. -/
theorem Counted.step_of_fired (h : s.Counted count) (hfired : s.barrier.fired = true)
    (hacts : s.Acts s') : s'.barrier = s.barrier ∧ s'.ran = s.ran := by
  have hzero := h.fired hfired
  cases hacts with
  | called => exact ⟨rfl, rfl⟩
  | refused => exact ⟨rfl, rfl⟩
  | ended => exact ⟨rfl, rfl⟩
  | spent => exact ⟨rfl, rfl⟩
  | accepted hcall haccepted => omega
  | fired hcall hfull => exact absurd (hfull.symm.trans hfired) Bool.false_ne_true

theorem Counted.run_of_fired (h : s.Counted count) (hfired : s.barrier.fired = true)
    (hrun : Run s s') : s'.barrier = s.barrier ∧ s'.ran = s.ran := by
  induction hrun using Relation.ReflTransGen.head_induction_on with
  | refl => exact ⟨rfl, rfl⟩
  | head hstep _ ih =>
    obtain ⟨a, hact⟩ := hstep
    obtain ⟨hbarrier, hran⟩ := h.step_of_fired hfired (act_cases hact)
    obtain ⟨hbarrier', hran'⟩ := ih (h.step (act_cases hact)) (by rw [hbarrier, hfired])
    exact ⟨hbarrier'.trans hbarrier, hran'.trans hran⟩

theorem Counted.length_ran_le (h : s.Counted count) : s.ran.length ≤ 1 := by
  rw [h.ran]
  split
  · cases closer? count s.arrived with
    | none => exact Nat.zero_le _
    | some k => exact Nat.le_refl _
  · exact Nat.zero_le _

/-- The call that closes the barrier has run the callback, unless it is just about to. -/
theorem Counted.ran_eq_singleton_iff (h : s.Counted count) (k : Nat) :
    s.ran = [k] ↔ closer? count s.arrived = some k ∧ s.calls[k]? ≠ some .firing := by
  rw [h.ran]
  cases hfired : s.barrier.fired with
  | true =>
    have hpast : s.calls[k]? ≠ some .firing := by
      intro hk
      exact Bool.false_ne_true ((h.firing k hk).1.symm.trans hfired)
    rw [if_pos rfl, Option.toList_eq_singleton_iff]
    exact (and_iff_left hpast).symm
  | false =>
    refine iff_of_false nofun ?_
    rintro ⟨hcloser, hpast⟩
    have hremaining := h.remaining
    have htotal := total_of_closer? hcloser
    obtain ⟨j, hj⟩ := h.unfired (by omega) hfired
    obtain rfl := Option.some.inj ((h.firing j hj).2.symm.trans hcloser)
    exact hpast hj

/-- What can be said of a barrier for `count` arrivals, whatever its calls have done. -/
structure CountsExactly (count : Nat) (s : BarrierSession) : Prop where
  /-- What remains is the number that was asked for less the accepted arrivals. -/
  remaining : s.barrier.remaining + total (accepted count s.arrived) = count
  /-- The calls may as well have come one after the other. -/
  inTurn : inTurn count s.arrived =
    (.counting s.barrier.remaining, (closer? count s.arrived).toList)
  closed_iff : (closer? count s.arrived).isSome ↔ s.barrier.remaining = 0
  /-- Arrivals that are none, or more than what remains, are refused as a whole. -/
  refused : ∀ k n : Nat, s.calls[k]? = some (.arriving n) → n = 0 ∨ s.barrier.remaining < n →
    s.act (.lower k) =
      some { s.setCall k .returned with arrived := s.arrived ++ [⟨k, n⟩] }
  /-- All others are accepted, and the call that brings the number to zero has to fire. -/
  accepted : ∀ k n : Nat, s.calls[k]? = some (.arriving n) → 0 < n → n ≤ s.barrier.remaining →
    ∃ s', s.act (.lower k) = some s' ∧
      s'.barrier = { s.barrier with remaining := s.barrier.remaining - n } ∧ s'.ran = s.ran ∧
      s'.calls[k]? = some (if n = s.barrier.remaining then .firing else .returned)
  /-- The callback has run in the call that brought the number to zero, unless this is just
      about to run it, and in no other. -/
  ran_iff : ∀ k : Nat,
    s.ran = [k] ↔ closer? count s.arrived = some k ∧ s.calls[k]? ≠ some .firing
  at_most_once : s.ran.length ≤ 1
  /-- Whoever is about to run the callback will find it. -/
  firing : ∀ k : Nat, s.calls[k]? = some .firing → closer? count s.arrived = some k ∧
    ∃ s', s.act (.fire k) = some s' ∧ s'.ran = [k]
  /-- It never runs again, whether it came back or gave up. -/
  final : s.ran ≠ [] → ∀ s', Run s s' → s'.barrier = s.barrier ∧ s'.ran = s.ran
  /-- Positive arrivals that make up the number, in any order: the last of them closes the
      barrier, and none before it. -/
  exhausted : ∀ m : Multiset Nat, (∀ n ∈ m, 0 < n) → m.sum = count →
    (s.arrived.map Arrival.arrivals : Multiset Nat) ≤ m →
    closer? count s.arrived =
      if (s.arrived.map Arrival.arrivals : Multiset Nat) = m then
        some ((s.arrived.getLast?.map Arrival.call).getD 0)
      else none

/-- **A barrier counts exactly**, in every session: for any number of calls through any
    handles, however their steps interleave, and whether or not the callback gives up. -/
theorem counts_exactly (h : Reachable count s) : s.CountsExactly count := by
  have hcounted := counted_of_reachable h
  have hremaining := hcounted.remaining
  refine ⟨hremaining, ?_, ?_, fun k n => act_lower_of_refused, ?_, hcounted.ran_eq_singleton_iff,
    hcounted.length_ran_le, ?_, ?_, fun m => closer?_of_le⟩
  · rw [inTurn_eq, hcounted.remaining_eq]
  · rw [isSome_closer?_iff]
    omega
  · intro k n hcall hpos hle
    have haccepted : ¬(n = 0 ∨ s.barrier.remaining < n) := by omega
    refine ⟨_, act_lower_of_accepted hcall haccepted, rfl, rfl, ?_⟩
    exact (getElem?_setCall (Option.isSome_of_eq_some hcall) _ k).trans (if_pos rfl)
  · intro k hk
    obtain ⟨hfull, hcloser⟩ := hcounted.firing k hk
    refine ⟨hcloser, _, act_fire hk hfull, ?_⟩
    show s.ran ++ [k] = [k]
    rw [hcounted.ran, hfull]
    rfl
  · intro hran s' hrun
    -- a callback has run, so the barrier has fired
    refine hcounted.run_of_fired ?_ hrun
    rw [hcounted.ran] at hran
    by_contra hfull
    rw [if_neg hfull] at hran
    exact hran rfl

namespace Sample

/-- Of two calls for two arrivals each the second one is too late, and a call for the third
    arrival closes the barrier.  Before it runs the callback, two more calls come for nothing.
    The callback gives up. -/
def overlapping : List BarrierAction :=
  [.call 2, .call 2, .lower 1, .lower 2, .call 1, .lower 3, .call 0, .call 5, .lower 4, .lower 5,
    .fire 3, .endCallback 3 true]

theorem isSome_overlapping : (overlapping.foldlM act (start 3)).isSome = true := by
  decide +kernel

def overlapped : BarrierSession := (overlapping.foldlM act (start 3)).get isSome_overlapping

end Sample

theorem counts_exactly_overlapped :
    Reachable 3 Sample.overlapped ∧
      Sample.overlapped.arrived = [⟨1, 2⟩, ⟨2, 2⟩, ⟨3, 1⟩, ⟨4, 0⟩, ⟨5, 5⟩] ∧
      Sample.overlapped.calls[3]? = some .raised ∧ Sample.overlapped.ran = [3] ∧
      ∀ s', Run Sample.overlapped s' → s'.barrier.remaining = 0 ∧ s'.ran = [3] := by
  have hreachable : Reachable 3 Sample.overlapped :=
    run_of_foldlM (Option.some_get Sample.isSome_overlapping).symm
  have hran : Sample.overlapped.ran = [3] := by decide +kernel
  refine ⟨hreachable, by decide +kernel, by decide +kernel, hran, ?_⟩
  intro s' hrun
  have hlater := (counts_exactly hreachable).final (by decide +kernel) s' hrun
  rw [hlater.1, hlater.2, hran]
  exact ⟨by decide +kernel, rfl⟩

end BarrierSession

end TilePaint
