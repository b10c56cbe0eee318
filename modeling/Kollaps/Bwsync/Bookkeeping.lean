import Kollaps.Bwsync.Departure
import Kollaps.Bwsync.Capacity
import Kollaps.Netgraph.Optimal

/-!
# The set of active flows

Flows compare by their end points. Over a run the set holds the flows that are updated and not
removed since, each with a consistent record, and a call leaves the flows alone that share no
link with its own.
-/

namespace Kollaps

open Run

namespace Bwsync

variable {T : Type} [Vertex T]

/-! ## Records -/

/-- The record of an active flow. A hungry flow uses all that it may, another may use its maximum. -/
structure Consistent (f : Flow T) : Prop where
  used_le : f.usedBandwidth ≤ f.maxAllowedBandwidth
  authorized_le : f.authorizedBandwidth ≤ f.maxAllowedBandwidth
  hungry : f.isHungry = true → f.usedBandwidth = f.authorizedBandwidth
  sated : f.isHungry = false → f.authorizedBandwidth = f.maxAllowedBandwidth

omit [Vertex T] in
theorem consistent_share (L : ℚ) {f : Flow T} (hmax : f.usedBandwidth ≤ f.maxAllowedBandwidth) :
    Consistent (f.share L) := by
  unfold Flow.share
  split
  · exact ⟨hmax, le_rfl, by simp [Flow.maxOut], fun _ => rfl⟩
  · exact ⟨min_le_right _ _, min_le_right _ _, fun _ => rfl, by simp [Flow.limit]⟩

theorem consistent_redistribute {g : Network T} (flows : FlowSet T) (path : List (Sym2 Nat)) {f : Flow T}
    (hmax : f.usedBandwidth ≤ f.maxAllowedBandwidth)
    (h : Consistent f ∨ ∃ c ∈ path, crosses g c f = true) : Consistent (redistribute g flows path f) := by
  unfold redistribute
  cases hl : leastLevel g flows path f with
  | some L => exact consistent_share L hmax
  | none =>
    rcases h with h | ⟨c, hc, hcross⟩
    · exact h
    · rw [leastLevel_eq_none.mp hl c hc] at hcross
      cases hcross

theorem redistribute_apart {g : Network T} (flows : FlowSet T) {path : List (Sym2 Nat)} {f : Flow T}
    (h : ∀ c ∈ g.cells f.source f.destination, c ∉ path) : redistribute g flows path f = f := by
  have hnone : leastLevel g flows path f = none := by
    rw [leastLevel_eq_none]
    intro c hc
    rw [crosses, decide_eq_false_iff_not]
    exact fun hf => h c hf hc
  rw [redistribute, hnone]

/-! ## Runs -/

/-- Updates are between different connected vertices and use something. A removal uses nothing. -/
def Call.Sound (g : Network T) : Call T → Prop
  | .update f => Vertex.id f.source ≠ Vertex.id f.destination ∧ g.Connected f.source f.destination ∧
      0 < f.usedBandwidth ∧ f.usedBandwidth ≤ f.maxAllowedBandwidth
  | .remove f => f.usedBandwidth = 0

inductive Ran (g : Network T) : List (Call T) → FlowSet T × Network T → Prop where
  | start : Ran g [] (KeySet.empty, g)
  | call {calls : List (Call T)} {s s' : FlowSet T × Network T} {c : Call T} (it : Iter) :
      Ran g calls s → c.Sound g → call it .wrapping g s c = .ok s' → Ran g (calls ++ [c]) s'

def Live (calls : List (Call T)) (k : Vertex.Id T × Vertex.Id T) : Prop :=
  ∃ pre f post, calls = pre ++ .update f :: post ∧ f.key = k ∧ ∀ f', .remove f' ∈ post → f'.key ≠ k

theorem not_live_nil (k : Vertex.Id T × Vertex.Id T) : ¬ Live ([] : List (Call T)) k := by
  rintro ⟨pre, f, post, h, -⟩
  simp at h

/-- The last call of a history is the update that makes the key live, or comes after it. -/
theorem live_append {calls : List (Call T)} {c : Call T} {k : Vertex.Id T × Vertex.Id T} :
    Live (calls ++ [c]) k ↔ (∃ f, c = .update f ∧ f.key = k) ∨
      (Live calls k ∧ ∀ f, c = .remove f → f.key ≠ k) := by
  constructor
  · rintro ⟨pre, f, post, h, hk, hpost⟩
    rcases List.eq_nil_or_concat post with rfl | ⟨post, c', rfl⟩
    · obtain ⟨-, h⟩ := List.append_inj' h rfl
      exact Or.inl ⟨f, List.singleton_inj.mp h, hk⟩
    · rw [List.concat_eq_append, ← List.cons_append, ← List.append_assoc] at h
      obtain ⟨rfl, hlast⟩ := List.append_inj' h rfl
      obtain rfl := List.singleton_inj.mp hlast
      simp only [List.concat_eq_append, List.mem_append, List.mem_singleton] at hpost
      exact Or.inr ⟨⟨pre, f, post, rfl, hk, fun f' hf' => hpost f' (Or.inl hf')⟩,
        fun f' hf' => hpost f' (Or.inr hf'.symm)⟩
  · rintro (⟨f, rfl, hk⟩ | ⟨⟨pre, f, post, rfl, hk, hpost⟩, hc⟩)
    · exact ⟨calls, f, [], rfl, hk, by simp⟩
    · refine ⟨pre, f, post ++ [c], by simp, hk, fun f' hf' => ?_⟩
      rcases List.mem_append.mp hf' with hf' | hf'
      · exact hpost f' hf'
      · exact hc f' (List.mem_singleton.mp hf').symm

/-! ## One call -/

theorem Call.Sound.known {g : Network T} {f : Flow T} (h : (Call.update f).Sound g) : Known g f := by
  obtain ⟨-, ⟨i, j, hm, -⟩, -⟩ := h
  exact ⟨_, hm⟩

theorem Call.Sound.cells {g : Network T} (hg : g.Wf) {f : Flow T} (h : (Call.update f).Sound g) :
    g.cells f.source f.destination ≠ [] := by
  obtain ⟨hne, hconn, -⟩ := h
  exact mt Network.cells_eq_nil.mp (hconn.route_ne_nil hg.shaped hne)

theorem call_sound (it : Iter) {g : Network T} (hg : g.Wf) {s : FlowSet T × Network T}
    (hI : RunInv g s) {c : Call T} (hc : c.Sound g) (hk : Known g c.flow) :
    Returns (call it .wrapping g s c) fun s' =>
      RunInv g s' ∧ Redistributed g (c.path g) (c.applied s.1) s'.1 := by
  cases c with
  | update f =>
    obtain ⟨hne, hconn, hused, hmax⟩ := id hc
    exact updateFlows_inv it .wrapping hg hI hk (hc.cells hg) hmax (by omega)
      ((hI.rebanded.connected hconn).bandwidthBetween hI.wf.shaped hne)
      fun flows' _ => calculateBandwidthGraph_wrapping it hg flows'
  | remove f =>
    exact removeFlow_inv it .wrapping hg hI hk hc
      fun flows' _ => calculateBandwidthGraph_wrapping it hg flows'

theorem known_of_call {it : Iter} {g : Network T} {s s' : FlowSet T × Network T} {c : Call T}
    (hc : c.Sound g) (h : call it .wrapping g s c = .ok s') : Known g c.flow := by
  cases c with
  | update f => exact hc.known
  | remove f =>
    obtain ⟨new, hnew, -⟩ := of_bind_eq_ok h
    obtain ⟨m, hm, -⟩ := of_bind_eq_ok hnew
    exact (known_of_ok hm).congr (key_remember (s.1.remove f.key) f).symm

theorem get?_applied (flows : FlowSet T) {c : Call T} {k : Vertex.Id T × Vertex.Id T}
    (hk : k ≠ c.flow.key) : (c.applied flows).get? k = flows.get? k := by
  cases c with
  | update f =>
    rw [Call.applied, get?_withFlow, key_remember]
    exact if_neg hk
  | remove f =>
    rw [Call.applied, get?_withFlow, key_remember, KeySet.get?_remove]
    exact (if_neg hk).trans (if_neg hk)

theorem contains_applied {g : Network T} (flows : FlowSet T) {c : Call T} (hc : c.Sound g)
    (k : Vertex.Id T × Vertex.Id T) : (c.applied flows).contains k = true ↔
      (∃ f, c = .update f ∧ f.key = k) ∨
        (flows.contains k = true ∧ ∀ f, c = .remove f → f.key ≠ k) := by
  cases c with
  | update f =>
    have hused : f.usedBandwidth ≠ 0 := by
      obtain ⟨-, -, hused, -⟩ := hc
      omega
    rw [KeySet.contains, Call.applied, get?_withFlow, key_remember, usedBandwidth_remember, if_neg hused,
      KeySet.contains]
    split <;> rename_i hk
    · simp [hk]
    · simp [Ne.symm hk]
  | remove f =>
    have hused : f.usedBandwidth = 0 := hc
    rw [KeySet.contains, Call.applied, get?_withFlow, key_remember, usedBandwidth_remember, if_pos hused,
      KeySet.get?_remove, KeySet.contains]
    split <;> rename_i hk
    · simp [hk]
    · simp [Ne.symm hk]

theorem Redistributed.contains_iff {g : Network T} {path : List (Sym2 Nat)} {flows flows' : FlowSet T}
    (h : Redistributed g path flows flows') (k : Vertex.Id T × Vertex.Id T) :
    flows'.contains k = true ↔ flows.contains k = true := by
  rw [KeySet.contains, h, Option.isSome_map, KeySet.contains]

theorem consistent_of_call {g : Network T} (hg : g.Wf) {flows flows' : FlowSet T} {c : Call T}
    (hc : c.Sound g) (hflows : ∀ f ∈ flows.elems, Consistent f)
    (h : Redistributed g (c.path g) (c.applied flows) flows') : ∀ f ∈ flows'.elems, Consistent f := by
  intro f hf
  obtain ⟨f₀, hf₀, rfl⟩ := List.mem_map.mp (h.perm.mem_iff.mp hf)
  cases c with
  | update u =>
    obtain ⟨-, -, -, hmax⟩ := id hc
    rcases mem_withFlow hf₀ with rfl | hf₀
    · obtain ⟨l, hl⟩ := List.exists_mem_of_ne_nil _ (hc.cells hg)
      refine consistent_redistribute _ _ (by simpa using hmax) (Or.inr ⟨l, hl, ?_⟩)
      rw [crosses_remember, crosses, decide_eq_true_eq]
      exact hl
    · exact consistent_redistribute _ _ (hflows f₀ hf₀).used_le (Or.inl (hflows f₀ hf₀))
  | remove u =>
    have hused : u.usedBandwidth = 0 := hc
    rw [Call.applied, withFlow, usedBandwidth_remember, if_pos hused] at hf₀
    have hin := (List.mem_filter.mp (List.mem_filter.mp hf₀).1).1
    exact consistent_redistribute _ _ (hflows f₀ hin).used_le (Or.inl (hflows f₀ hin))

theorem mem_of_call {g : Network T} {flows flows' : FlowSet T} {c : Call T}
    (h : Redistributed g (c.path g) (c.applied flows) flows') {f : Flow T} (hf : f ∈ flows.elems)
    (hcells : g.cells f.source f.destination ≠ [])
    (hapart : ∀ l ∈ g.cells f.source f.destination, l ∉ c.path g) : f ∈ flows'.elems := by
  have hk : f.key ≠ c.flow.key := by
    intro hk
    obtain ⟨l, hl⟩ := List.exists_mem_of_ne_nil _ hcells
    refine hapart l hl ?_
    rw [Call.path, ← cells_congr g hk]
    exact hl
  apply KeySet.mem_of_get? (k := f.key)
  rw [h, get?_applied flows hk, KeySet.get?_key hf, Option.map_some, redistribute_apart _ hapart]

/-! ## The bookkeeping -/

/-- What a run has in its flow set, and what its next call leaves alone. -/
structure RanInv (g : Network T) (calls : List (Call T)) (s : FlowSet T × Network T) : Prop where
  run : RunInv g s
  live : ∀ k, s.1.contains k = true ↔ Live calls k
  consistent : ∀ f ∈ s.1.elems, Consistent f
  cells : ∀ f ∈ s.1.elems, g.cells f.source f.destination ≠ []

theorem Ran.inv {g : Network T} (hg : g.Wf) {calls : List (Call T)} {s : FlowSet T × Network T}
    (h : Ran g calls s) : RanInv g calls s := by
  induction h with
  | start =>
    refine ⟨RunInv.start hg, fun k => ?_, by simp, by simp⟩
    simp [not_live_nil, KeySet.contains]
  | @call calls s s' c it _ hc he ih =>
    obtain ⟨hrun, hred⟩ := (call_sound it hg ih.run hc (known_of_call hc he)).of_eq he
    have hcontains : ∀ k, s'.1.contains k = true ↔ Live (calls ++ [c]) k := by
      intro k
      rw [hred.contains_iff, contains_applied s.1 hc, live_append, ih.live]
    refine ⟨hrun, hcontains, consistent_of_call hg hc ih.consistent hred, fun f hf => ?_⟩
    -- A flow of the new set was there before, or is the updated one.
    have hin := (contains_applied s.1 hc f.key).mp ((hred.contains_iff f.key).mp (KeySet.contains_key hf))
    rcases hin with ⟨u, rfl, hu⟩ | ⟨hin, -⟩
    · rw [cells_congr g hu.symm]
      exact hc.cells hg
    · obtain ⟨f₀, hf₀, hk⟩ := List.mem_map.mp (KeySet.contains_iff.mp hin)
      rw [cells_congr g hk.symm]
      exact ih.cells f₀ hf₀

/-- At every point of a run the set holds the flows that are updated and not removed since, with
consistent records. The next call leaves every flow alone that shares no link with its own, and
returns when its own flow is in the network. -/
theorem bookkeeping {g : Network T} (hg : g.Wf) {calls : List (Call T)} {s : FlowSet T × Network T}
    (h : Ran g calls s) :
    (∀ k, s.1.contains k = true ↔ Live calls k) ∧ (∀ f ∈ s.1.elems, Consistent f) ∧
    ∀ it c, c.Sound g →
      (Known g c.flow → ∃ s', call it .wrapping g s c = .ok s') ∧
      ∀ s', call it .wrapping g s c = .ok s' → ∀ f ∈ s.1.elems,
        (∀ l ∈ g.cells f.source f.destination, l ∉ c.path g) → f ∈ s'.1.elems := by
  have hinv := h.inv hg
  refine ⟨hinv.live, hinv.consistent, fun it c hc => ⟨fun hk => ?_, fun s' he f hf hapart => ?_⟩⟩
  · obtain ⟨s', he, -⟩ := call_sound it hg hinv.run hc hk
    exact ⟨s', he⟩
  · have hred := ((call_sound it hg hinv.run hc (known_of_call hc he)).of_eq he).2
    exact mem_of_call hred hf (hinv.cells f hf) hapart

theorem twoLinks_connected : twoLinks.Connected 0 1 ∧ twoLinks.Connected 0 2 := by
  have h : 3 = twoLinks.links.n := rfl
  have first : twoLinks.graph.Adj (Fin.cast h 0) (Fin.cast h 1) := by
    show twoLinks.adj 0 1 = true
    decide +kernel
  have second : twoLinks.graph.Adj (Fin.cast h 1) (Fin.cast h 2) := by
    show twoLinks.adj 1 2 = true
    decide +kernel
  have hmap : twoLinks.mapTwo 0 1 = some (0, 1) ∧ twoLinks.mapTwo 0 2 = some (0, 2) := by decide +kernel
  exact ⟨⟨_, _, hmap.1, first.reachable⟩, ⟨_, _, hmap.2, first.reachable.trans second.reachable⟩⟩

theorem bookkeeping_demo : ∃ s : FlowSet Nat × Network Nat, Ran twoLinks
    [.update (wideFlow 0 2 100), .update (wideFlow 0 1 60), .remove (wideFlow 0 2 0)] s ∧
      ∀ f ∈ s.1.elems, Consistent f := by
  obtain ⟨s, hs, s', hs', s'', hs''⟩ : Returns (call .inOrder .wrapping twoLinks (KeySet.empty, twoLinks)
      (.update (wideFlow 0 2 100))) fun s =>
        Returns (call .inOrder .wrapping twoLinks s (.update (wideFlow 0 1 60))) fun s' =>
          Returns (call .inOrder .wrapping twoLinks s' (.remove (wideFlow 0 2 0))) fun s'' =>
            s''.1.len = 1 := by decide +kernel
  have hboth : (Call.update (wideFlow 0 2 100)).Sound twoLinks :=
    ⟨by decide, twoLinks_connected.2, by decide, by decide⟩
  have hfirst : (Call.update (wideFlow 0 1 60)).Sound twoLinks :=
    ⟨by decide, twoLinks_connected.1, by decide, by decide⟩
  have hrun := ((Ran.start.call .inOrder hboth hs).call .inOrder hfirst hs').call .inOrder
    (c := .remove (wideFlow 0 2 0)) rfl hs''.1
  exact ⟨s'', hrun, (bookkeeping twoLinks_built.wf hrun).2.1⟩

end Bwsync

end Kollaps
