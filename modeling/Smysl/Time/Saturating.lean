import Smysl.Time.Interval
import Smysl.Time.Search

/-!
The solver's sums saturate. A scan adds at most one weight for each constraint to
the largest label, and a search scans so many times at most: where as many weights
stay within an instant, the solver is the one with exact sums.
-/
namespace Smysl
namespace Stn

theorem saturating_exact {a b : Int} (within : (a + b).natAbs ≤ maxInstant.toNat) :
    saturatingAdd a b = exactSum a b := by
  have high : maxInstant = 2 ^ 63 - 1 := rfl
  have low : minInstant = -2 ^ 63 := rfl
  rw [saturatingAdd, exactSum]
  omega

/-- Every label is within `bound`. -/
def Bounded (bound : Nat) (st : Labels) : Prop := ∀ v d, st.dist v = some d → d.natAbs ≤ bound

section
variable {n u bound : Nat} {st : Labels} {a : Arc} {du : Int}

theorem Bounded.mono {more : Nat} (bounded : Bounded bound st) (le : bound ≤ more) :
    Bounded more st := fun v d labelled => (bounded v d labelled).trans le

theorem Bounded.lower {cand : Int} (bounded : Bounded bound st) (within : cand.natAbs ≤ bound) :
    Bounded bound (st.lowerTo n a cand) := by
  intro v d labelled
  rw [lower_to_dist] at labelled
  by_cases head : v = a.head
  · rw [head, set_at_same] at labelled
    cases labelled
    exact within
  · rw [set_at_other _ _ head] at labelled
    exact bounded v d labelled

theorem Bounded.relax (bounded : Bounded bound st) (within : (du + a.weight).natAbs ≤ bound) :
    Bounded bound (st.relax exactSum n du a) := by
  rcases @relax_cases n st a du with ⟨_, _, _, same⟩ | ⟨_, same⟩ | ⟨_, same⟩
  · rwa [same]
  · obtain ⟨cause, tied, _⟩ := @tie_cases st a
    rw [same, tied]
    exact bounded
  · rw [same]
    exact bounded.lower within

theorem relax_saturating (within : (du + a.weight).natAbs ≤ maxInstant.toNat) :
    st.relax saturatingAdd n du a = st.relax exactSum n du a := by
  rw [Labels.relax, Labels.relax, saturating_exact within]

/-- One arc of a scan for cycles, with a sum of its own. -/
def scanArcBy (plus : Int → Int → Int) (n u : Nat) (st : Labels) (a : Arc) : Labels :=
  match st.dist u with
  | none => st
  | some du =>
    if (st.dist a.head).any (fun d => d ≤ plus du a.weight) then st
    else st.lowerTo n a (plus du a.weight)

theorem Bounded.scan_arc (bounded : Bounded bound st) :
    Bounded (bound + a.weight.natAbs) (scanArc n u st a) := by
  have more := bounded.mono (Nat.le_add_right bound a.weight.natAbs)
  rw [scanArc]
  split
  · exact more
  · rename_i du held
    have low := bounded u du held
    split
    · exact more
    · refine more.lower ?_
      rw [exactSum]
      omega

theorem scan_arc_saturating (bounded : Bounded bound st)
    (within : bound + a.weight.natAbs ≤ maxInstant.toNat) :
    scanArcBy saturatingAdd n u st a = scanArc n u st a := by
  rw [scanArcBy, scanArc]
  cases held : st.dist u with
  | none => rfl
  | some du =>
    have low := bounded u du held
    have exact_ : saturatingAdd du a.weight = exactSum du a.weight :=
      saturating_exact (by omega)
    dsimp only
    rw [exact_]

end

/-- The weights of some arcs, without their signs. -/
def heft (as : List Arc) : Nat := (as.map (fun a => a.weight.natAbs)).sum

theorem heft_cons (a : Arc) (as : List Arc) : heft (a :: as) = a.weight.natAbs + heft as := by
  rw [heft, List.map_cons, List.sum_cons, heft]

section
variable {n u bound : Nat} {as : List Arc}

theorem relax_arcs_saturating {top : Nat} {du : Int} {st : Labels} (bounded : Bounded top st)
    (low : du.natAbs ≤ bound) (room : bound + heft as ≤ top) (within : top ≤ maxInstant.toNat) :
    as.foldl (Labels.relax saturatingAdd n du) st = as.foldl (Labels.relax exactSum n du) st ∧
      Bounded top (as.foldl (Labels.relax exactSum n du) st) := by
  induction as generalizing st with
  | nil => exact ⟨rfl, bounded⟩
  | cons a as ih =>
    rw [heft_cons] at room
    have sum : (du + a.weight).natAbs ≤ top := by omega
    rw [List.foldl_cons, List.foldl_cons, relax_saturating (sum.trans within)]
    exact ih (bounded.relax sum) (by omega)

theorem scan_arcs_saturating {st : Labels} (bounded : Bounded bound st)
    (within : bound + heft as ≤ maxInstant.toNat) :
    as.foldl (scanArcBy saturatingAdd n u) st = as.foldl (scanArc n u) st ∧
      Bounded (bound + heft as) (as.foldl (scanArc n u) st) := by
  induction as generalizing bound st with
  | nil => exact ⟨rfl, bounded⟩
  | cons a as ih =>
    rw [heft_cons] at within ⊢
    rw [List.foldl_cons, List.foldl_cons, scan_arc_saturating bounded (by omega), ← Nat.add_assoc]
    exact ih bounded.scan_arc (by omega)

/-- Two scans that agree while the labels are small, and make them larger by so much at most,
run alike. -/
theorem run_saturating {scan scan' : Nat → Labels → Labels} {more : Nat}
    (step : ∀ u bound st, bound + more ≤ maxInstant.toNat → Bounded bound st →
      scan u st = scan' u st ∧ Bounded (bound + more) (scan' u st))
    (fuel : Nat) (st : Labels) (bounded : Bounded bound st)
    (within : bound + fuel * more ≤ maxInstant.toNat) : run scan fuel st = run scan' fuel st := by
  induction fuel generalizing bound st with
  | zero => rfl
  | succ fuel ih =>
    rw [run, run]
    split
    · rfl
    · rename_i u rest queue
      rw [Nat.succ_mul] at within
      obtain ⟨same, grown⟩ := step u bound { st with queue := rest } (by omega) bounded
      rw [same]
      exact ih _ grown (by omega)

end

namespace Network
variable {net : Network}

variable (net) in
/-- The weights of all the constraints, without their signs. -/
def load : Nat := (net.edges.map (fun e => e.weight.natAbs)).sum

theorem heft_filter_map (f : Edge → Option Arc) (keeps : ∀ e a, f e = some a → a.weight = e.weight)
    (edges : List Edge) :
    heft (edges.filterMap f) ≤ (edges.map (fun e => e.weight.natAbs)).sum := by
  induction edges with
  | nil => exact le_rfl
  | cons e edges ih =>
    rw [List.map_cons, List.sum_cons]
    cases kept : f e with
    | none =>
      rw [List.filterMap_cons_none kept]
      omega
    | some a =>
      rw [List.filterMap_cons_some kept, heft_cons, keeps e a kept]
      omega

theorem heft_arcs (reverse : Bool) (u : Nat) : heft (net.arcs reverse u) ≤ net.load := by
  have one (p : Edge → Bool) (g : Edge → Arc) (same : ∀ e, (g e).weight = e.weight) :
      heft (net.edges.filterMap (fun e => if p e then some (g e) else none)) ≤ net.load := by
    refine heft_filter_map _ (fun e a kept => ?_) net.edges
    split at kept
    · cases kept
      exact same e
    · cases kept
  cases reverse with
  | false =>
    have ahead := one (fun e => e.src = u ∧ e.dst ≠ reference)
      (fun e => ⟨e.dst, e.weight, e.cause⟩) (fun _ => rfl)
    simp only [decide_eq_true_eq] at ahead
    exact ahead
  | true =>
    have behind := one (fun e => e.dst = u ∧ e.src ≠ reference)
      (fun e => ⟨e.src, e.weight, e.cause⟩) (fun _ => rfl)
    simp only [decide_eq_true_eq] at behind
    exact behind

theorem heft_inner (u : Nat) : heft (net.inner u) ≤ net.load := by
  refine heft_filter_map _ (fun e a kept => ?_) net.edges
  split at kept
  · cases kept
    rfl
  · cases kept

/-- The weights are small enough: as many scans as a search makes saturate no sum. -/
def Small (net : Network) : Prop := enough (net.vars + 1) * net.load ≤ maxInstant.toNat

theorem Small.shortest (small : net.Small) (reverse : Bool) :
    net.shortest saturatingAdd (net.vars + 1) reverse =
      net.shortest exactSum (net.vars + 1) reverse := by
  refine @run_saturating 0 _ _ net.load (fun u bound st within bounded => ?_) _ _ ?_
    (by rwa [Nat.zero_add])
  · rw [scanShortest, scanShortest]
    cases held : st.dist u with
    | none => exact ⟨rfl, bounded.mono (Nat.le_add_right _ _)⟩
    | some du =>
      have light := net.heft_arcs reverse u
      exact relax_arcs_saturating (bounded.mono (Nat.le_add_right _ _)) (bounded u du held)
        (by omega) within
  · intro v d labelled
    change setAt (fun _ => none) reference (some 0) v = some d at labelled
    by_cases here : v = reference
    · rw [here, set_at_same] at labelled
      cases labelled
      exact le_rfl
    · rw [set_at_other _ _ here] at labelled
      cases labelled

theorem Small.cycle_search (small : net.Small) :
    net.cycleSearch saturatingAdd (net.vars + 1) = net.cycleSearch exactSum (net.vars + 1) := by
  refine @run_saturating 0 _ _ net.load (fun u bound st within bounded => ?_) _ _ ?_
    (by rwa [Nat.zero_add])
  · have light := net.heft_inner u
    have scanned := @scan_arcs_saturating (net.vars + 1) u bound (net.inner u) st bounded (by omega)
    exact ⟨scanned.1, scanned.2.mono (by omega)⟩
  · intro v d labelled
    cases labelled
    exact le_rfl

/-- No sum saturates: the solver answers as with exact sums. -/
def Unsaturated (net : Network) : Prop := net.solve saturatingAdd = net.solve exactSum

theorem Small.unsaturated (small : net.Small) : net.Unsaturated := by
  rw [Unsaturated, Network.solve, Network.solve, negativeCycles, negativeCycles, small.shortest,
    small.shortest, small.cycle_search]

end Network
end Stn
end Smysl
