import Kollaps.Bwsync.Runs

/-!
# Capacity

A call makes the flows fit on every link of the path of the updated flow. On the other links
a hungry flow may come out with more than it had, and nothing looks at them again.
-/

namespace Kollaps

open Run

namespace Bwsync

variable {T : Type} [Vertex T]

def Safe (g : Network T) (flows : FlowSet T) : Prop :=
  ∀ i j l, i < g.links.n → j < g.links.n → g.links.entry i j = some l →
    load g flows.elems s(i, j) ≤ l.bandwidth

instance (g : Network T) (flows : FlowSet T) : Decidable (Safe g flows) :=
  decidable_of_iff (∀ i < g.links.n, ∀ j < g.links.n, ∀ l ∈ g.links.entry i j,
    load g flows.elems s(i, j) ≤ l.bandwidth)
    ⟨fun h i j l hi hj hl => h i hi j hj l hl, fun h i hi j hj l hl => h i j l hi hj hl⟩

/-! ## When a call is safe -/

def mostUsed (g : Network T) (path : List (Sym2 Nat)) (f : Flow T) : Nat :=
  if f.isHungry ∧ ∃ c ∈ path, crosses g c f then f.maxAllowedBandwidth else f.usedBandwidth

/-- Off the path there is room for the hungry flows that the call looks at. -/
def Roomy (g : Network T) (flows : FlowSet T) (path : List (Sym2 Nat)) : Prop :=
  ∀ i j l, i < g.links.n → j < g.links.n → g.links.entry i j = some l → s(i, j) ∉ path →
    ((flows.elems.filter (crosses g s(i, j))).map (mostUsed g path)).sum ≤ l.bandwidth

instance (g : Network T) (flows : FlowSet T) (path : List (Sym2 Nat)) : Decidable (Roomy g flows path) :=
  decidable_of_iff (∀ i < g.links.n, ∀ j < g.links.n, ∀ l ∈ g.links.entry i j,
    path.contains s(i, j) = false →
      ((flows.elems.filter (crosses g s(i, j))).map (mostUsed g path)).sum ≤ l.bandwidth)
    ⟨fun h i j l hi hj hl hc => h i hi j hj l hl (by simpa using hc),
      fun h i hi j hj l hl hc => h i j l hi hj hl (by simpa using hc)⟩

theorem leastLevel_le {g : Network T} (flows : FlowSet T) {path : List (Sym2 Nat)} {f : Flow T}
    {c : Sym2 Nat} (hc : c ∈ path) (hf : crosses g c f = true) :
    ∃ L, leastLevel g flows path f = some L ∧ 0 ≤ L ∧ L ≤ linkLevel g flows c := by
  cases hl : leastLevel g flows path f with
  | none =>
    rw [leastLevel_eq_none.mp hl c hc] at hf
    cases hf
  | some L =>
    obtain ⟨hmem, hle⟩ := least_eq_some.mp hl
    obtain ⟨c', -, rfl⟩ := List.mem_map.mp hmem
    exact ⟨_, rfl, linkLevel_nonneg _ _ _,
      hle _ (List.mem_map.mpr ⟨c, List.mem_filter.mpr ⟨hc, hf⟩, rfl⟩)⟩

theorem used_redistribute_le {g : Network T} {flows : FlowSet T} {path : List (Sym2 Nat)} {f : Flow T}
    (hmax : f.usedBandwidth ≤ f.maxAllowedBandwidth) :
    (redistribute g flows path f).usedBandwidth ≤ mostUsed g path f := by
  unfold redistribute mostUsed
  cases hl : leastLevel g flows path f with
  | none =>
    have hnone := leastLevel_eq_none.mp hl
    rw [if_neg]
    rintro ⟨-, c, hc, hcross⟩
    rw [hnone c hc] at hcross
    cases hcross
  | some L =>
    have hL : 0 ≤ L := by
      obtain ⟨c', -, rfl⟩ := List.mem_map.mp (least_eq_some.mp hl).1
      exact linkLevel_nonneg _ _ _
    show (f.share L).usedBandwidth ≤ _
    by_cases hh : f.isHungry = true ∧ ∃ c ∈ path, crosses g c f = true
    · rw [if_pos hh]
      exact Flow.used_share_le_max hmax
    · rw [if_neg hh]
      refine Flow.used_share_le_used hL (Bool.eq_false_iff.mpr fun hhungry => hh ⟨hhungry, ?_⟩)
      -- A flow that has a level shares a link with the path.
      by_contra hno
      simp only [not_exists, not_and, Bool.not_eq_true] at hno
      rw [leastLevel_eq_none.mpr hno] at hl
      cases hl

theorem load_redistributed {g : Network T} {flows flows' : FlowSet T} {path : List (Sym2 Nat)}
    (h : Redistributed g path flows flows') (c : Sym2 Nat) :
    load g flows'.elems c = ((flows.elems.filter (crosses g c)).map fun f =>
      (redistribute g flows path f).usedBandwidth).sum := by
  rw [load_perm g h.perm, load, List.filter_map, List.map_map]
  congr 2
  exact List.filter_congr fun f _ => crosses_redistribute g flows path f c

theorem load_on_path {g : Network T} {flows flows' : FlowSet T} {path : List (Sym2 Nat)}
    (h : Redistributed g path flows flows') {c : Sym2 Nat} (hc : c ∈ path) :
    load g flows'.elems c ≤ g.bandOf c := by
  rw [load_redistributed h]
  refine (List.sum_le_sum fun f hf => ?_).trans (sum_share_le (g.bandOf c) (flows.elems.filter (crosses g c)))
  obtain ⟨L, hL, hnonneg, hle⟩ := leastLevel_le flows hc (List.mem_filter.mp hf).2
  rw [redistribute, hL]
  exact Flow.used_share_mono hnonneg hle f

theorem withFlow_off_path {g : Network T} {flows : FlowSet T} {f : Flow T} {c : Sym2 Nat}
    (hc : crosses g c f = false) :
    ((withFlow flows f).elems.filter (crosses g c)).Sublist (flows.elems.filter (crosses g c)) := by
  have hremove : ((flows.remove f.key).elems.filter (crosses g c)).Sublist
      (flows.elems.filter (crosses g c)) := List.Sublist.filter _ List.filter_sublist
  unfold withFlow
  split
  · exact hremove
  · simp only [KeySet.replace, List.filter_cons, hc, Bool.false_eq_true, if_false]
    exact hremove

theorem load_off_path {g : Network T} {flows flows' : FlowSet T} {path : List (Sym2 Nat)} {f : Flow T}
    (h : Redistributed g path (withFlow flows f) flows')
    (hmax : ∀ h ∈ (withFlow flows f).elems, h.usedBandwidth ≤ h.maxAllowedBandwidth) {c : Sym2 Nat}
    (hc : crosses g c f = false) : load g flows'.elems c ≤
      ((flows.elems.filter (crosses g c)).map (mostUsed g path)).sum := by
  rw [load_redistributed h]
  calc (((withFlow flows f).elems.filter (crosses g c)).map fun h =>
        (redistribute g (withFlow flows f) path h).usedBandwidth).sum
      ≤ (((withFlow flows f).elems.filter (crosses g c)).map (mostUsed g path)).sum :=
        List.sum_le_sum fun h hh => used_redistribute_le (hmax h (List.mem_filter.mp hh).1)
    _ ≤ ((flows.elems.filter (crosses g c)).map (mostUsed g path)).sum :=
        ((withFlow_off_path hc).map _).sum_le_sum fun _ _ => Nat.zero_le _

/-! ## Safe runs -/

theorem Safe.fits {g : Network T} (hg : g.Wf) {flows : FlowSet T} (h : Safe g flows) :
    Fits g flows.elems := by
  intro i j hi hj
  cases hl : g.links.entry i j with
  | some l =>
    rw [Network.band, hl]
    exact h i j l hi hj hl
  | none =>
    -- No route goes where there is no link.
    have hnone : flows.elems.filter (crosses g s(i, j)) = [] := by
      rw [List.filter_eq_nil_iff]
      intro f _ hf
      obtain ⟨⟨l, hl'⟩, -⟩ := Network.adj_iff.mp (hg.adj_of_mem_cells (decide_eq_true_eq.mp hf))
      rw [hl] at hl'
      cases hl'
    rw [load, hnone]
    exact Nat.zero_le _

theorem safe_of_roomy {g : Network T} (hg : g.Wf) {flows flows' : FlowSet T} {f : Flow T}
    (hmax : ∀ h ∈ (withFlow flows f).elems, h.usedBandwidth ≤ h.maxAllowedBandwidth)
    (hroom : Roomy g flows (g.cells f.source f.destination))
    (hred : Redistributed g (g.cells f.source f.destination) (withFlow flows f) flows') :
    Safe g flows' := by
  intro i j l hi hj hl
  by_cases hc : s(i, j) ∈ g.cells f.source f.destination
  · have := load_on_path hred hc
    rwa [← hg.cell_eq hi hj hl, hg.bandOf_cell ⟨i, j, hi, hj, hl⟩, hg.cell_eq hi hj hl] at this
  · refine (load_off_path hred hmax ?_).trans (hroom i j l hi hj hl hc)
    rw [crosses, decide_eq_false_iff_not]
    exact hc

theorem Roomy.remove {g : Network T} {flows : FlowSet T} {path : List (Sym2 Nat)}
    (h : Roomy g flows path) (k : Vertex.Id T × Vertex.Id T) : Roomy g (flows.remove k) path := by
  intro i j l hi hj hl hoff
  refine le_trans ?_ (h i j l hi hj hl hoff)
  exact ((List.filter_sublist.filter _).map _).sum_le_sum fun _ _ => Nat.zero_le _

theorem cells_remember (g : Network T) (flows : FlowSet T) (f : Flow T) :
    g.cells (remember flows f).source (remember flows f).destination =
      g.cells f.source f.destination := cells_congr g (key_remember flows f)

theorem Call.safe {g : Network T} (hg : g.Wf) {s : FlowSet T × Network T} (hI : RunInv g s)
    {c : Call T} (hc : c.Valid g) (hroom : Roomy g s.1 (c.path g)) {flows' : FlowSet T}
    (hred : Redistributed g (c.path g) (c.applied s.1) flows') : Safe g flows' := by
  -- The updated flow has at most its maximum, like the active ones.
  have hmax : ∀ flows : FlowSet T, (∀ h ∈ flows.elems, h ∈ s.1.elems) →
      ∀ h ∈ (withFlow flows (remember flows c.flow)).elems, h.usedBandwidth ≤ h.maxAllowedBandwidth := by
    intro flows hsub h hh
    rcases mem_withFlow hh with rfl | hh
    · simpa using hc.measured.max
    · exact hI.max h (hsub h hh)
  cases c with
  | update f =>
    refine safe_of_roomy hg (f := remember s.1 f) (hmax s.1 fun _ h => h) ?_ ?_
    · rw [cells_remember]; exact hroom
    · rw [cells_remember]; exact hred
  | remove f =>
    refine safe_of_roomy hg (f := remember (s.1.remove f.key) f)
      (hmax (s.1.remove f.key) fun _ h => (List.mem_filter.mp h).1) ?_ ?_
    · rw [cells_remember]; exact hroom.remove f.key
    · rw [cells_remember]; exact hred

theorem call_safe (it : Iter) (ar : Arith) {g : Network T} (hg : g.Wf)
    (hs : g.pathStrategy = .shortestPath) {s : FlowSet T × Network T} (hI : RunInv g s) {c : Call T}
    (hc : c.Valid g) (hroom : Roomy g s.1 (c.path g)) :
    Returns (call it ar g s c) fun s' => RunInv g s' ∧ Safe g s'.1 := by
  refine (call_spec it ar hg hs hI hc fun flows' hred => ?_).mono fun s' h =>
    ⟨h.1, Call.safe hg hI hc hroom h.2⟩
  have hsafe := Call.safe hg hI hc hroom hred
  exact (calculateBandwidthGraph_spec it ar hg hs (hsafe.fits hg)).mono fun bw h => ⟨h.rebanded, h.wf⟩

theorem Reach.safe {ar : Arith} {g : Network T} (hg : g.Wf) (hs : g.pathStrategy = .shortestPath)
    {s : FlowSet T × Network T}
    (h : Reach ar g (fun flows c => c.Valid g ∧ Roomy g flows (c.path g)) s) :
    RunInv g s ∧ Safe g s.1 := by
  induction h with
  | start => exact ⟨RunInv.start hg, fun _ _ _ _ _ _ => by simp [load]⟩
  | call it _ hok he ih => exact (call_safe it ar hg hs ih.1 hok.1 hok.2).of_eq he

/-- Along a run whose calls all have room, the flows fit on every link, and the next call
with room returns, so none of its subtractions underflows. -/
theorem capacity_of_roomy {ar : Arith} {g : Network T} (hb : g.Built)
    (hs : g.pathStrategy = .shortestPath) {s : FlowSet T × Network T}
    (h : Reach ar g (fun flows c => c.Valid g ∧ Roomy g flows (c.path g)) s) :
    Safe g s.1 ∧ ∀ (it : Iter) (c : Call T), c.Valid g → Roomy g s.1 (c.path g) →
      Returns (call it ar g s c) fun s' => Safe g s'.1 :=
  ⟨(h.safe hb.wf hs).2, fun it _ hc hroom =>
    (call_safe it ar hb.wf hs (h.safe hb.wf hs).1 hc hroom).mono fun _ hs' => hs'.2⟩

/-! ## Two links in a row -/

def twoLinks : Network Nat where
  links :=
    ⟨3, [none, some (Link.build 0 1 0 1 100), none, none, some (Link.build 1 2 1 2 100), none],
      by decide +kernel⟩
  mapper := ⟨[(2, 2), (1, 1), (0, 0)], by decide⟩
  pathStrategy := .shortestPath

theorem twoLinks_built : twoLinks.Built := by
  obtain ⟨g₀, h₀, g₁, h₁, h₂⟩ : Returns (Network.new [0, 1, 2] .shortestPath) fun g₀ =>
      Returns (g₀.addEdge 0 1 100) fun g₁ => g₁.addEdge 1 2 100 = .ok twoLinks := by decide +kernel
  exact ((Network.Built.new h₀).addEdge (by decide) h₁).addEdge (by decide) h₂

def wideFlow (a b : Nat) (measured : Nat) : Flow Nat := Flow.build a b 100 (min measured 100)

theorem wideFlow_measured {a b : Nat} (measured : Nat)
    (h : twoLinks.propertiesBetween a b = .ok (some ⟨100, 0, (0, 0)⟩)) :
    Measured twoLinks (wideFlow a b measured) :=
  ⟨_, measured, h, rfl⟩

theorem twoLinks_safe : Returns (call .inOrder .checked twoLinks (KeySet.empty, twoLinks)
      (.update (wideFlow 0 2 100))) fun s =>
    Returns (call .inOrder .checked twoLinks s (.update (wideFlow 0 1 100))) fun s' =>
      Safe twoLinks s'.1 := by
  obtain ⟨s, hs, hroom⟩ : Returns (call .inOrder .checked twoLinks (KeySet.empty, twoLinks)
      (.update (wideFlow 0 2 100))) fun s =>
        Roomy twoLinks s.1 ((Call.update (wideFlow 0 1 100)).path twoLinks) := by decide +kernel
  have hreach : Reach .checked twoLinks
      (fun flows c => c.Valid twoLinks ∧ Roomy twoLinks flows (c.path twoLinks)) s :=
    .call (c := .update (wideFlow 0 2 100)) .inOrder .start
      ⟨⟨wideFlow_measured 100 (by decide +kernel), by decide⟩, by decide +kernel⟩ hs
  exact ⟨s, hs, (capacity_of_roomy twoLinks_built rfl hreach).2 .inOrder _
    ⟨wideFlow_measured 100 (by decide +kernel), by decide⟩ hroom⟩

/-- The three flows take both links in turn. When the flow on the first link goes, the flow
through both gets its hundred back on the first, and the second is over its capacity. -/
def overcommit : List (Call Nat) :=
  [.update (wideFlow 0 2 100), .update (wideFlow 0 1 100), .update (wideFlow 1 2 100),
    .remove (wideFlow 0 1 0)]

theorem overcommit_valid : ∀ c ∈ overcommit, c.Valid twoLinks := by
  intro c hc
  simp only [overcommit, List.mem_cons, List.not_mem_nil, or_false] at hc
  rcases hc with rfl | rfl | rfl | rfl <;>
    exact ⟨wideFlow_measured _ (by decide +kernel), by decide⟩

theorem capacity_unsafe :
    (twoLinks.Built ∧ twoLinks.pathStrategy = .shortestPath) ∧
    (∃ s, Reach .wrapping twoLinks (fun _ c => c.Valid twoLinks) s ∧ ¬ Safe twoLinks s.1) ∧
    ∃ s c, Reach .checked twoLinks (fun _ c => c.Valid twoLinks) s ∧ c.Valid twoLinks ∧
      call .inOrder .checked twoLinks s c = .error .arith := by
  refine ⟨⟨twoLinks_built, rfl⟩, ?_, ?_⟩
  · obtain ⟨s, hs, hunsafe⟩ : Returns (overcommit.foldlM (call .inOrder .wrapping twoLinks)
        (KeySet.empty, twoLinks)) fun s => ¬ Safe twoLinks s.1 := by decide +kernel
    exact ⟨s, reach_calls .start overcommit_valid hs, hunsafe⟩
  · obtain ⟨s, hs, hfault⟩ : Returns ((overcommit.take 3).foldlM (call .inOrder .checked twoLinks)
        (KeySet.empty, twoLinks)) fun s => call .inOrder .checked twoLinks s
          (.remove (wideFlow 0 1 0)) = .error .arith := by decide +kernel
    exact ⟨s, _, reach_calls .start (fun c hc => overcommit_valid c (List.mem_of_mem_take hc)) hs,
      overcommit_valid _ (by simp [overcommit]), hfault⟩

end Bwsync

end Kollaps
