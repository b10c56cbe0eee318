import Kollaps.Bwsync.Sharing

/-!
# What one call does to the active flows

A call maps every active flow to its share at the least level of the links that it has in
common with the path of the updated flow. No hash order has a say in it.
-/

namespace Kollaps

open Run WaterFilling

namespace Bwsync

variable {T : Type}

/-! ## Merging -/

def stricter : Option (Flow T) → Option (Flow T) → Option (Flow T)
  | some a, some b => some (if a.authorizedBandwidth < b.authorizedBandwidth then a else b)
  | some a, none => some a
  | none, o => o

theorem stricter_share {L L' : ℚ} (hL : 0 ≤ L) (hL' : 0 ≤ L') {f : Flow T}
    (hmax : f.usedBandwidth ≤ f.maxAllowedBandwidth) :
    stricter (some (f.share L)) (some (f.share L')) = some (f.share (min L L')) := by
  -- A flow that leaves one link and not the other gets less than its maximum on the other.
  have hless : ∀ {p p' : ℚ}, 0 ≤ p' → maxedOut p f = true → maxedOut p' f = false →
      p' < p ∧ (f.limit p').authorizedBandwidth < f.maxOut.authorizedBandwidth := by
    intro p p' hp' hs hs'
    obtain ⟨h1, h2⟩ := Flow.maxedOut_iff.mp hs
    have hlt : p' < f.usedBandwidth := by
      by_contra hle
      rw [Flow.maxedOut_iff.mpr ⟨h1, not_lt.mp hle⟩] at hs'
      cases hs'
    have hcast := Nat.cast_lt.mp ((Flow.castU32_le hp').trans_lt hlt)
    refine ⟨hlt.trans_le h2, ?_⟩
    simp only [Flow.limit, Flow.maxOut]
    omega
  rw [stricter, Option.some.injEq]
  cases hs : maxedOut L f <;> cases hs' : maxedOut L' f
  · -- Both links limit the flow.
    have hmin : maxedOut (min L L') f = false := by
      rcases min_choice L L' with h | h
      · rw [h]; exact hs
      · rw [h]; exact hs'
    have hcast : Flow.castU32 (min L L') = min (Flow.castU32 L) (Flow.castU32 L') := by
      rcases le_total L L' with h | h
      · rw [min_eq_left h, min_eq_left (Flow.castU32_mono h)]
      · rw [min_eq_right h, min_eq_right (Flow.castU32_mono h)]
    simp only [Flow.share, hs, hs', hmin, Bool.false_eq_true, if_false, Flow.limit, hcast]
    split <;> rename_i hlt
    · have : min (Flow.castU32 L) f.maxAllowedBandwidth =
          min (min (Flow.castU32 L) (Flow.castU32 L')) f.maxAllowedBandwidth := by omega
      rw [this]
    · have : min (Flow.castU32 L') f.maxAllowedBandwidth =
          min (min (Flow.castU32 L) (Flow.castU32 L')) f.maxAllowedBandwidth := by omega
      rw [this]
  · obtain ⟨hlt, hauth⟩ := hless hL hs' hs
    rw [min_eq_left (le_of_lt hlt), if_pos]
    simpa only [Flow.share, hs, hs', if_true, Bool.false_eq_true, if_false] using hauth
  · obtain ⟨hlt, hauth⟩ := hless hL' hs hs'
    rw [min_eq_right (le_of_lt hlt), if_neg]
    simpa only [Flow.share, hs, hs', if_true, Bool.false_eq_true, if_false, not_lt] using le_of_lt hauth
  · have hmin : maxedOut (min L L') f = true := by
      rcases min_choice L L' with h | h
      · rw [h]; exact hs
      · rw [h]; exact hs'
    simp only [Flow.share, hs, hs', hmin, if_true]
    split <;> rfl

variable [Vertex T]

theorem merge_spec (it : Iter) (self other : FlowSet T) :
    Returns (merge it self other) fun r => ∀ k, r.get? k = stricter (self.get? k) (other.get? k) := by
  unfold merge
  have hkeys : ((it.order (self.inter other).elems).map Flow.key).Nodup :=
    ((it.perm _).map _).nodup_iff.mpr (self.inter other).nodup
  have hfold := Returns.foldlM (l := it.order (self.inter other).elems)
    (f := fun (acc : FlowSet T) (flow : Flow T) => do
      let first ← unwrap (self.get? flow.key)
      let second ← unwrap (other.get? flow.key)
      if first.authorizedBandwidth < second.authorizedBandwidth then pure (acc.insert first)
      else pure (acc.insert second))
    (s := KeySet.empty)
    (fun pre acc => ∀ k, acc.get? k =
      if k ∈ pre.map Flow.key then stricter (self.get? k) (other.get? k) else none)
    (fun k => by simp)
    (by
      intro pre flow post acc hx hacc
      have hmem : flow ∈ (self.inter other).elems := it.mem_order.mp (by rw [hx]; simp)
      rw [KeySet.inter, KeySet.elems_filter, List.mem_filter] at hmem
      obtain ⟨hself, hcon⟩ := hmem
      obtain ⟨second, hsecond⟩ := Option.isSome_iff_exists.mp hcon
      have hfresh : flow.key ∉ pre.map Flow.key := by
        rw [hx, List.map_append, List.map_cons] at hkeys
        exact fun h => (List.nodup_append.mp hkeys).2.2 _ h _ List.mem_cons_self rfl
      have hnone : acc.get? flow.key = none := by rw [hacc, if_neg hfresh]
      rw [KeySet.get?_key hself, unwrap_some, bind_ok, hsecond, unwrap_some, bind_ok]
      -- The kept flow has the key of both.
      have hins : ∀ kept : Flow T, kept.key = flow.key →
          some kept = stricter (self.get? flow.key) (other.get? flow.key) → ∀ k,
          (acc.insert kept).get? k = if k ∈ (pre ++ [flow]).map Flow.key then
            stricter (self.get? k) (other.get? k) else none := by
        intro kept hk hs k
        rw [KeySet.get?_insert, hk, hnone, Option.getD_none, hacc]
        simp only [List.map_append, List.mem_append, List.map_singleton, List.mem_singleton]
        by_cases hkk : k = flow.key
        · rw [if_pos hkk, if_pos (Or.inr hkk), hkk, hs]
        · rw [if_neg hkk]
          simp only [hkk, or_false]
      have hstrict : stricter (self.get? flow.key) (other.get? flow.key) =
          some (if flow.authorizedBandwidth < second.authorizedBandwidth then flow else second) := by
        rw [KeySet.get?_key hself, hsecond]
        rfl
      split <;> rename_i hlt
      · rw [returns_pure]
        exact hins flow rfl (by rw [hstrict, if_pos hlt])
      · rw [returns_pure]
        exact hins second (KeySet.key_of_get? hsecond) (by rw [hstrict, if_neg hlt]))
  refine hfold.bind fun selected hsel => ?_
  rw [returns_pure]
  intro k
  have hmem : k ∈ (it.order (self.inter other).elems).map Flow.key ↔
      (self.get? k).isSome = true ∧ (other.get? k).isSome = true := by
    rw [((it.perm (self.inter other).elems).map Flow.key).mem_iff]
    have h := KeySet.contains_iff (s := self.inter other) (k := k)
    simp only [KeySet.contains, KeySet.get?_inter] at h
    rw [KeySet.keys] at h
    rw [← h]
    rcases Option.eq_none_or_eq_some (other.get? k) with h' | ⟨b, h'⟩ <;> simp [h']
  simp only [KeySet.get?_union, KeySet.get?_symmDiff, KeySet.get?_difference, KeySet.contains, hsel,
    hmem]
  rcases Option.eq_none_or_eq_some (self.get? k) with h | ⟨a, h⟩ <;>
    rcases Option.eq_none_or_eq_some (other.get? k) with h' | ⟨b, h'⟩ <;>
    simp [h, h', stricter]

/-! ## The flows on a link -/

def crosses (g : Network T) (c : Sym2 Nat) (f : Flow T) : Bool :=
  decide (c ∈ g.cells f.source f.destination)

def Known (g : Network T) (f : Flow T) : Prop := ∃ p, g.mapTwo f.source f.destination = some p

/-- The active flows with the updated one in its new state, as every link sees them. -/
def withFlow (flows : FlowSet T) (f : Flow T) : FlowSet T :=
  if f.usedBandwidth = 0 then flows.remove f.key else flows.replace f

/-- The map of `get_flows_by_shared_links`: each link of the path, with the flows that cross it. -/
structure Shared (g : Network T) (flows : FlowSet T) (path : List (Sym2 Nat)) (m : LinkMap T) :
    Prop where
  hasLink : ∀ p ∈ m.elems, g.HasLink p.1
  cells : (m.elems.map fun p => p.1.cell).Perm path
  flows : ∀ p ∈ m.elems, p.2.elems.Perm (flows.elems.filter (crosses g p.1.cell))

theorem getPathBetween_known {g : Network T} (hg : g.Wf) {f : Flow T} (hf : Known g f) :
    ∃ p, g.getPathBetween f.source f.destination = .ok (some p) ∧
      g.PathOf f.source f.destination p := by
  obtain ⟨⟨i, j⟩, hm⟩ := hf
  obtain ⟨o, ho, p, rfl, hp⟩ := Network.getPathBetween_spec hg.shaped hm
  exact ⟨p, ho, hp⟩

theorem inter_isEmpty {g : Network T} (hg : g.Wf) {f : Flow T} {p : Path T}
    (hp : g.PathOf f.source f.destination p) {link : Link T} (hl : g.HasLink link) :
    (p.linksSet.inter (KeySet.empty.insert link)).elems.isEmpty = !crosses g link.cell f := by
  have hone : ∀ k, (KeySet.empty.insert link : LinkSet T).contains k = decide (k = link.key) := by
    intro k
    rw [KeySet.contains, KeySet.get?_insert]
    split <;> rename_i h <;> simp [h]
  rw [Bool.eq_iff_iff, List.isEmpty_iff, KeySet.inter, KeySet.elems_filter, List.filter_eq_nil_iff,
    Bool.not_eq_true', crosses, decide_eq_false_iff_not, ← hp.contains_iff hg hl, KeySet.contains_iff,
    KeySet.keys, List.mem_map]
  constructor
  · rintro h ⟨l, hl', hk⟩
    exact h l hl' (by rw [hone, hk]; exact decide_eq_true rfl)
  · intro h l hl' hk
    rw [hone, decide_eq_true_eq] at hk
    exact h ⟨l, hl', hk⟩

theorem flowsOnLink_spec (it : Iter) {g : Network T} (hg : g.Wf) {flows : FlowSet T}
    (hflows : ∀ h ∈ flows.elems, Known g h) {link : Link T} (hl : g.HasLink link) :
    Returns ((it.order flows.elems).foldlM (fun (set : FlowSet T) flow => do
      let path ← unwrap (← g.getPathBetween flow.source flow.destination)
      if (path.linksSet.inter (KeySet.empty.insert link)).elems.isEmpty then pure set
      else pure (set.insert flow)) KeySet.empty) fun set =>
        set.elems.Perm (flows.elems.filter (crosses g link.cell)) := by
  have hkeys : ((it.order flows.elems).map Flow.key).Nodup :=
    ((it.perm _).map _).nodup_iff.mpr flows.nodup
  refine (Returns.foldlM (fun pre (set : FlowSet T) =>
    set.elems.Perm (pre.filter (crosses g link.cell))) (by simp) ?_).mono fun set h =>
      h.trans ((it.perm _).filter _)
  intro pre flow post set hx hset
  have hmem : flow ∈ flows.elems := it.mem_order.mp (by rw [hx]; simp)
  obtain ⟨p, hp, hpath⟩ := getPathBetween_known hg (hflows flow hmem)
  rw [hp, bind_ok, unwrap_some, bind_ok, inter_isEmpty hg hpath hl, List.filter_append]
  cases hc : crosses g link.cell flow with
  | false => simpa [hc] using hset
  | true =>
    have hfresh : set.contains flow.key = false := by
      rw [Bool.eq_false_iff]
      intro hcon
      obtain ⟨h, hh, hk⟩ := List.mem_map.mp (KeySet.contains_iff.mp hcon)
      have hpre : h ∈ pre := (List.mem_filter.mp (hset.mem_iff.mp hh)).1
      rw [hx, List.map_append, List.map_cons] at hkeys
      exact (List.nodup_append.mp hkeys).2.2 _ (List.mem_map_of_mem hpre) _ List.mem_cons_self hk
    simp only [Bool.not_true, Bool.false_eq_true, if_false, returns_pure]
    rw [KeySet.elems_insert hfresh, List.filter_singleton, hc]
    exact (List.Perm.cons _ hset).trans (List.perm_append_singleton _ _).symm

theorem withFlow_filter {g : Network T} {flows set : FlowSet T} {f : Flow T} {c : Sym2 Nat}
    (hc : crosses g c f = true) (h : set.elems.Perm (flows.elems.filter (crosses g c))) :
    (withFlow set f).elems.Perm ((withFlow flows f).elems.filter (crosses g c)) := by
  have hremove : (set.remove f.key).elems.Perm ((flows.remove f.key).elems.filter (crosses g c)) := by
    simp only [KeySet.remove, KeySet.elems_filter]
    rw [List.filter_filter]
    refine (h.filter _).trans (List.Perm.of_eq ?_)
    rw [List.filter_filter]
    exact List.filter_congr fun a _ => Bool.and_comm _ _
  unfold withFlow
  split
  · exact hremove
  · simp only [KeySet.replace, List.filter_cons, hc, if_true]
    exact hremove.cons f

theorem getFlowsBySharedLinks_spec (it : Iter) {g : Network T} (hg : g.Wf) {flows : FlowSet T}
    (hflows : ∀ h ∈ flows.elems, Known g h) {f : Flow T} (hf : Known g f) :
    Returns (getFlowsBySharedLinks it f flows g)
      (Shared g (withFlow flows f) (g.cells f.source f.destination)) := by
  obtain ⟨p, hp, hpath⟩ := getPathBetween_known hg hf
  unfold getFlowsBySharedLinks
  rw [hp, bind_ok, unwrap_some, bind_ok]
  have hcells : ((it.order p.linksSet.elems).map Link.cell).Perm (g.cells f.source f.destination) := by
    refine ((it.perm _).map _).trans ?_
    rw [hpath.cells]
    exact List.reverse_perm _
  have hnd : ((it.order p.linksSet.elems).map Link.cell).Nodup :=
    hcells.nodup_iff.mpr (hg.nodup_cells _ _)
  refine (Returns.foldlM (fun pre m => Shared g (withFlow flows f) (pre.map Link.cell) m)
    ⟨by simp, by simp, by simp⟩ ?_).mono fun m h => ⟨h.hasLink, h.cells.trans hcells, h.flows⟩
  intro pre link post m hx hm
  have hmem : link ∈ p.linksSet.elems := it.mem_order.mp (by rw [hx]; simp)
  have hl := hpath.hasLink link hmem
  have hcross : crosses g link.cell f = true := by
    rw [crosses, decide_eq_true_eq, ← hpath.contains_iff hg hl]
    exact KeySet.contains_key hmem
  refine (flowsOnLink_spec it hg hflows hl).bind fun set hset => ?_
  rw [returns_pure]
  have hfresh : m.contains link.key = false := by
    rw [Bool.eq_false_iff]
    intro hcon
    obtain ⟨q, hq, hk⟩ := List.mem_map.mp (KeySet.contains_iff.mp hcon)
    rw [hg.key_eq_iff (hm.hasLink q hq) hl] at hk
    rw [hx, List.map_append, List.map_cons] at hnd
    have hin : q.1.cell ∈ pre.map Link.cell :=
      hm.cells.mem_iff.mp (List.mem_map.mpr ⟨q, hq, rfl⟩)
    exact (List.nodup_append.mp hnd).2.2 _ hin _ List.mem_cons_self hk
  have helems := KeySet.elems_put (v := withFlow set f) hfresh
  show Shared g (withFlow flows f) _ (m.put link (withFlow set f))
  refine ⟨?_, ?_, ?_⟩
  · intro q hq
    rw [helems, List.mem_cons] at hq
    rcases hq with rfl | hq
    · exact hl
    · exact hm.hasLink q hq
  · rw [helems, List.map_cons, List.map_append, List.map_singleton]
    exact (hm.cells.cons _).trans (List.perm_append_singleton _ _).symm
  · intro q hq
    rw [helems, List.mem_cons] at hq
    rcases hq with rfl | hq
    · exact withFlow_filter hcross hset
    · exact hm.flows q hq

/-! ## The new shares -/

def linkLevel (g : Network T) (flows : FlowSet T) (c : Sym2 Nat) : ℚ :=
  partitionOf (g.bandOf c) (flows.elems.filter (crosses g c))

/-- The least level of the links that a flow has in common with a path. -/
def leastLevel (g : Network T) (flows : FlowSet T) (path : List (Sym2 Nat)) (f : Flow T) : Option ℚ :=
  least ((path.filter fun c => crosses g c f).map (linkLevel g flows))

def redistribute (g : Network T) (flows : FlowSet T) (path : List (Sym2 Nat)) (f : Flow T) : Flow T :=
  match leastLevel g flows path f with
  | some L => f.share L
  | none => f

def remember (flows : FlowSet T) (f : Flow T) : Flow T :=
  match flows.get? f.key with
  | some old => { f with isHungry := old.isHungry }
  | none => f

theorem ends_remember (flows : FlowSet T) (f : Flow T) :
    (remember flows f).source = f.source ∧ (remember flows f).destination = f.destination := by
  unfold remember
  cases flows.get? f.key <;> exact ⟨rfl, rfl⟩

theorem linkLevel_nonneg (g : Network T) (flows : FlowSet T) (c : Sym2 Nat) :
    0 ≤ linkLevel g flows c := partitionOf_nonneg _ _

theorem linkLevel_eq {g : Network T} (hg : g.Wf) {flows : FlowSet T} {link : Link T}
    (hl : g.HasLink link) {l : List (Flow T)} (h : l.Perm (flows.elems.filter (crosses g link.cell))) :
    partitionOf link.bandwidth l = linkLevel g flows link.cell := by
  rw [linkLevel, hg.bandOf_cell hl, partitionOf_perm h]

theorem stricter_leastLevel {g : Network T} {flows : FlowSet T} {pre : List (Sym2 Nat)}
    {c : Sym2 Nat} {h : Flow T} (hmax : h.usedBandwidth ≤ h.maxAllowedBandwidth) :
    stricter ((leastLevel g flows pre h).map h.share)
        (if crosses g c h then some (h.share (linkLevel g flows c)) else none) =
      (leastLevel g flows (pre ++ [c]) h).map h.share := by
  unfold leastLevel
  rw [List.filter_append, List.map_append]
  cases hc : crosses g c h with
  | false =>
    simp only [Bool.false_eq_true, if_false, List.filter_singleton, hc, cond_false, List.map_nil,
      List.append_nil]
    cases least ((pre.filter fun c => crosses g c h).map (linkLevel g flows)) <;> rfl
  | true =>
    simp only [if_true, List.filter_singleton, hc, cond_true, List.map_cons, List.map_nil]
    rw [least_append]
    cases hl : least ((pre.filter fun c => crosses g c h).map (linkLevel g flows)) with
    | none => rfl
    | some y =>
      obtain ⟨c', -, rfl⟩ := List.mem_map.mp (least_eq_some.mp hl).1
      exact stricter_share (linkLevel_nonneg _ _ _) (linkLevel_nonneg _ _ _) hmax

/-- The strictest share of a flow, when the links are taken in this order. -/
def strictest (g : Network T) (flows : FlowSet T) (order : List (Sym2 Nat)) (h : Flow T) :
    Option (Flow T) :=
  order.foldl (fun o c => stricter o
    (if crosses g c h then some (h.share (linkLevel g flows c)) else none)) none

theorem strictest_append (g : Network T) (flows : FlowSet T) (order : List (Sym2 Nat)) (c : Sym2 Nat)
    (h : Flow T) : strictest g flows (order ++ [c]) h = stricter (strictest g flows order h)
      (if crosses g c h then some (h.share (linkLevel g flows c)) else none) := by
  rw [strictest, List.foldl_append, List.foldl_cons, List.foldl_nil, ← strictest]

theorem strictest_eq {g : Network T} {flows : FlowSet T} {order : List (Sym2 Nat)} {h : Flow T}
    (hmax : h.usedBandwidth ≤ h.maxAllowedBandwidth) :
    strictest g flows order h = (leastLevel g flows order h).map h.share := by
  induction order using List.reverseRecOn with
  | nil => rfl
  | append_singleton order c ih => rw [strictest_append, ih, stricter_leastLevel hmax]

theorem isSome_strictest {g : Network T} {flows : FlowSet T} {order : List (Sym2 Nat)} {h : Flow T} :
    (strictest g flows order h).isSome = true ↔ ∃ c ∈ order, crosses g c h = true := by
  induction order using List.reverseRecOn with
  | nil => simp [strictest]
  | append_singleton order c ih =>
    have hor : ∀ o o' : Option (Flow T), (stricter o o').isSome = (o.isSome || o'.isSome) := by
      intro o o'
      cases o <;> cases o' <;> rfl
    rw [strictest_append, hor, Bool.or_eq_true, ih]
    cases hc : crosses g c h <;> simp [hc]

theorem strictest_eq_share {g : Network T} {flows : FlowSet T} {order : List (Sym2 Nat)} {h h' : Flow T}
    (hs : strictest g flows order h = some h') :
    ∃ c ∈ order, crosses g c h = true ∧ h' = h.share (linkLevel g flows c) := by
  induction order using List.reverseRecOn generalizing h' with
  | nil => cases hs
  | append_singleton order c ih =>
    rw [strictest_append] at hs
    have hlast : crosses g c h = true → h' = h.share (linkLevel g flows c) →
        ∃ c' ∈ order ++ [c], crosses g c' h = true ∧ h' = h.share (linkLevel g flows c') :=
      fun hc heq => ⟨c, by simp, hc, heq⟩
    have hbefore : strictest g flows order h = some h' →
        ∃ c' ∈ order ++ [c], crosses g c' h = true ∧ h' = h.share (linkLevel g flows c') := by
      intro ho
      obtain ⟨c', hc', hcross, heq⟩ := ih ho
      exact ⟨c', List.mem_append_left _ hc', hcross, heq⟩
    cases ho : strictest g flows order h with
    | none =>
      rw [ho, stricter] at hs
      split at hs <;> rename_i hc
      · exact hlast hc (Option.some.inj hs).symm
      · cases hs
    | some h'' =>
      rw [ho] at hs
      split at hs <;> rename_i hc
      · simp only [stricter, Option.some.injEq] at hs
        split at hs
        · exact hbefore (by rw [ho, hs])
        · exact hlast hc hs.symm
      · exact hbefore (by rw [ho]; exact hs)

/-- The fold of `update_active_flows` over links, each walked in an order of its own. -/
def mergeLinks (iter : Link T × FlowSet T → Iter) (links : List (Link T × FlowSet T)) : Run (FlowSet T) :=
  links.foldlM (fun acc p => do
    let newFlows ← distributeBandwidthAcrossFlow (iter p) p.1 p.2
    merge (iter p) acc newFlows) KeySet.empty

/-- Every flow gets the strictest of its shares on the links. -/
theorem mergeLinks_spec (iter : Link T × FlowSet T → Iter) {g : Network T} (hg : g.Wf)
    {flows : FlowSet T} {path : List (Sym2 Nat)} {m : LinkMap T} (hm : Shared g flows path m)
    {links : List (Link T × FlowSet T)} (hlinks : ∀ p ∈ links, p ∈ m.elems) :
    Returns (mergeLinks iter links) fun new => ∀ k, new.get? k =
      (flows.get? k).bind (strictest g flows (links.map fun p => p.1.cell)) := by
  unfold mergeLinks
  refine Returns.foldlM (fun (pre : List (Link T × FlowSet T)) (acc : FlowSet T) => ∀ k,
    acc.get? k = (flows.get? k).bind (strictest g flows (pre.map fun p => p.1.cell))) ?_ ?_
  · intro k
    cases flows.get? k <;> rfl
  · intro pre p post acc hx hacc
    have hp : p ∈ m.elems := hlinks p (by rw [hx]; simp)
    have hlevel := linkLevel_eq hg (hm.hasLink _ hp) (hm.flows _ hp)
    refine (distributeBandwidthAcrossFlow_spec (iter p) p.1 p.2).bind fun new hnew => ?_
    rw [hlevel] at hnew
    refine (merge_spec (iter p) acc new).mono fun r hr k => ?_
    have hsame := KeySet.same_of_perm (s := p.2) (t := flows.filter (crosses g p.1.cell))
      (hm.flows _ hp) k
    rw [hr, hacc, KeySet.get?_map_of_perm (Flow.key_share _) hnew, hsame, KeySet.get?_filter,
      List.map_append]
    cases hk : flows.get? k with
    | none => rfl
    | some h =>
      rw [Option.bind_some, Option.bind_some, List.map_singleton, strictest_append]
      congr 1
      cases hc : crosses g p.1.cell h <;> simp [Option.filter, hc]

theorem updateActiveFlows_eq (it : Iter) (f : Flow T) (flows : FlowSet T) (g : Network T) :
    updateActiveFlows it f flows g = (do
      let linksToCheck ← getFlowsBySharedLinks it (remember flows f) flows g
      mergeLinks (fun _ => it) (it.order linksToCheck.elems)) := rfl

theorem updateActiveFlows_spec (it : Iter) {g : Network T} (hg : g.Wf) {flows : FlowSet T}
    (hflows : ∀ h ∈ flows.elems, Known g h) {f : Flow T} (hf : Known g f) :
    Returns (updateActiveFlows it f flows g) fun new =>
      ∃ order, order.Perm (g.cells f.source f.destination) ∧ ∀ k, new.get? k =
        ((withFlow flows (remember flows f)).get? k).bind
          (strictest g (withFlow flows (remember flows f)) order) := by
  have hends := ends_remember flows f
  have hf' : Known g (remember flows f) := by
    unfold Known
    rw [hends.1, hends.2]
    exact hf
  rw [updateActiveFlows_eq]
  refine (getFlowsBySharedLinks_spec it hg hflows hf').bind fun m hm => ?_
  rw [hends.1, hends.2] at hm
  refine (mergeLinks_spec _ hg hm fun p hp => it.mem_order.mp hp).mono fun new hnew => ⟨_, ?_, hnew⟩
  exact ((it.perm m.elems).map _).trans hm.cells

theorem leastLevel_perm {g : Network T} {flows : FlowSet T} {path path' : List (Sym2 Nat)}
    (h : path.Perm path') (f : Flow T) : leastLevel g flows path f = leastLevel g flows path' f :=
  least_congr fun _ => ((h.filter _).map _).mem_iff

/-! ## The calls -/

/-- The outcome of a call: every flow has its new share, and no flow comes or goes. -/
def Redistributed (g : Network T) (path : List (Sym2 Nat)) (flows flows' : FlowSet T) : Prop :=
  ∀ k, flows'.get? k = (flows.get? k).map (redistribute g flows path)

theorem get?_replaceAll (it : Iter) (flows new : FlowSet T) (k : Vertex.Id T × Vertex.Id T) :
    (replaceAll it flows new).get? k = (new.get? k).or (flows.get? k) := by
  have hnd : ((it.order new.elems).map Flow.key).Nodup := ((it.perm _).map _).nodup_iff.mpr new.nodup
  rw [replaceAll, KeySet.get?_foldl_replace hnd, KeySet.find?_order]

theorem get?_withFlow (flows : FlowSet T) (f : Flow T) (k : Vertex.Id T × Vertex.Id T) :
    (withFlow flows f).get? k =
      if k = f.key then (if f.usedBandwidth = 0 then none else some f) else flows.get? k := by
  unfold withFlow
  split <;> rename_i h
  · rw [KeySet.get?_remove]
  · rw [KeySet.get?_replace]

@[simp] theorem key_remember (flows : FlowSet T) (f : Flow T) : (remember flows f).key = f.key := by
  unfold remember
  cases flows.get? f.key <;> rfl

@[simp] theorem usedBandwidth_remember (flows : FlowSet T) (f : Flow T) :
    (remember flows f).usedBandwidth = f.usedBandwidth := by
  unfold remember
  cases flows.get? f.key <;> rfl

@[simp] theorem maxAllowedBandwidth_remember (flows : FlowSet T) (f : Flow T) :
    (remember flows f).maxAllowedBandwidth = f.maxAllowedBandwidth := by
  unfold remember
  cases flows.get? f.key <;> rfl

@[simp] theorem crosses_remember (g : Network T) (flows : FlowSet T) (f : Flow T) (c : Sym2 Nat) :
    crosses g c (remember flows f) = crosses g c f := by
  unfold remember
  cases flows.get? f.key <;> rfl

theorem leastLevel_eq_none {g : Network T} {flows : FlowSet T} {path : List (Sym2 Nat)} {h : Flow T} :
    leastLevel g flows path h = none ↔ ∀ c ∈ path, crosses g c h = false := by
  rw [leastLevel, least_eq_none, List.map_eq_nil_iff, List.filter_eq_nil_iff]
  simp only [Bool.not_eq_true]

theorem replaceAll_redistributed (it : Iter) {g : Network T} {flows new : FlowSet T} {f : Flow T}
    (hcase : (f.usedBandwidth = 0 ∧ flows.get? f.key = none) ∨
      (f.usedBandwidth ≠ 0 ∧ g.cells f.source f.destination ≠ []))
    (hnew : ∀ k, new.get? k = ((withFlow flows (remember flows f)).get? k).bind fun h =>
      (leastLevel g (withFlow flows (remember flows f)) (g.cells f.source f.destination) h).map
        h.share) :
    Redistributed g (g.cells f.source f.destination) (withFlow flows (remember flows f))
      (replaceAll it flows new) := by
  intro k
  rw [get?_replaceAll, hnew]
  by_cases hk : k = f.key
  · subst hk
    rw [get?_withFlow, key_remember, if_pos rfl, usedBandwidth_remember]
    rcases hcase with ⟨hu, hnone⟩ | ⟨hu, hcells⟩
    · rw [if_pos hu, hnone]
      rfl
    · rw [if_neg hu, Option.bind_some, Option.map_some, redistribute]
      cases hl : leastLevel g (withFlow flows (remember flows f)) (g.cells f.source f.destination)
          (remember flows f) with
      | some L => rfl
      | none =>
        obtain ⟨c, hc⟩ := List.exists_mem_of_ne_nil _ hcells
        have := leastLevel_eq_none.mp hl c hc
        rw [crosses_remember, crosses, decide_eq_false_iff_not] at this
        exact absurd hc this
  · rw [get?_withFlow, key_remember, if_neg hk]
    cases flows.get? k with
    | none => rfl
    | some h =>
      rw [Option.bind_some, Option.map_some, redistribute]
      cases leastLevel g (withFlow flows (remember flows f)) (g.cells f.source f.destination) h <;> rfl

@[simp] theorem key_redistribute (g : Network T) (flows : FlowSet T) (path : List (Sym2 Nat))
    (f : Flow T) : (redistribute g flows path f).key = f.key := by
  unfold redistribute
  cases leastLevel g flows path f with
  | none => rfl
  | some L => exact Flow.key_share L f

theorem ends_redistribute (g : Network T) (flows : FlowSet T) (path : List (Sym2 Nat)) (f : Flow T) :
    (redistribute g flows path f).source = f.source ∧
      (redistribute g flows path f).destination = f.destination := by
  unfold redistribute
  cases leastLevel g flows path f with
  | none => exact ⟨rfl, rfl⟩
  | some L => exact ⟨Flow.source_share L f, Flow.destination_share L f⟩

@[simp] theorem crosses_redistribute (g : Network T) (flows : FlowSet T) (path : List (Sym2 Nat))
    (f : Flow T) (c : Sym2 Nat) : crosses g c (redistribute g flows path f) = crosses g c f := by
  unfold redistribute
  cases leastLevel g flows path f with
  | none => rfl
  | some L => rw [crosses, Flow.source_share, Flow.destination_share, crosses]

theorem Redistributed.perm {g : Network T} {path : List (Sym2 Nat)} {flows flows' : FlowSet T}
    (h : Redistributed g path flows flows') :
    flows'.elems.Perm (flows.elems.map (redistribute g flows path)) :=
  KeySet.perm_map_of_get? (key_redistribute g flows path) h

theorem write_spec (it : Iter) (ar : Arith) {g : Network T} (hg : g.Wf) {flows : FlowSet T}
    (hflows : ∀ h ∈ flows.elems, Known g h) {f : Flow T} (hf : Known g f)
    (hmax : ∀ h ∈ (withFlow flows (remember flows f)).elems, h.usedBandwidth ≤ h.maxAllowedBandwidth)
    (hcase : (f.usedBandwidth = 0 ∧ flows.get? f.key = none) ∨
      (f.usedBandwidth ≠ 0 ∧ g.cells f.source f.destination ≠ []))
    {Q : Network T → Prop}
    (hcalc : ∀ flows', Redistributed g (g.cells f.source f.destination)
      (withFlow flows (remember flows f)) flows' → Returns (calculateBandwidthGraph it ar g flows') Q) :
    Returns (do
      let newFlows ← updateActiveFlows it f flows g
      let activeFlows := replaceAll it flows newFlows
      let bwGraph ← calculateBandwidthGraph it ar g activeFlows
      pure (activeFlows, bwGraph)) fun s =>
        Redistributed g (g.cells f.source f.destination) (withFlow flows (remember flows f)) s.1 ∧
          Q s.2 := by
  refine (updateActiveFlows_spec it hg hflows hf).bind fun new hnew => ?_
  have hred := replaceAll_redistributed it hcase fun k => by
    obtain ⟨order, horder, hget⟩ := hnew
    rw [hget]
    cases hk : (withFlow flows (remember flows f)).get? k with
    | none => rfl
    | some h =>
      rw [Option.bind_some, Option.bind_some, strictest_eq (hmax h (KeySet.mem_of_get? hk)),
        leastLevel_perm horder]
  refine (hcalc _ hred).bind fun bw hbw => ?_
  rw [returns_pure]
  exact ⟨hred, hbw⟩

/-! ## The keys -/

theorem updateActiveFlows_keys (it : Iter) {g : Network T} (hg : g.Wf) {flows : FlowSet T}
    (hflows : ∀ h ∈ flows.elems, Known g h) {f : Flow T} (hf : Known g f) :
    Returns (updateActiveFlows it f flows g) fun new => ∀ k, new.contains k = true ↔
      ∃ h, (withFlow flows (remember flows f)).get? k = some h ∧
        ∃ c ∈ g.cells f.source f.destination, crosses g c h = true := by
  refine (updateActiveFlows_spec it hg hflows hf).mono ?_
  rintro new ⟨order, horder, hget⟩ k
  rw [KeySet.contains, hget]
  cases hk : (withFlow flows (remember flows f)).get? k with
  | none => simp
  | some h =>
    rw [Option.bind_some, isSome_strictest]
    simp only [Option.some.injEq, exists_eq_left', horder.mem_iff]

theorem contains_replaceAll (it : Iter) (flows new : FlowSet T) (k : Vertex.Id T × Vertex.Id T) :
    (replaceAll it flows new).contains k = true ↔ new.contains k = true ∨ flows.contains k = true := by
  rw [KeySet.contains, get?_replaceAll, Option.isSome_or, Bool.or_eq_true]
  rfl

theorem write_keys {it : Iter} {ar : Arith} {g : Network T} (hg : g.Wf) {flows : FlowSet T}
    (hflows : ∀ h ∈ flows.elems, Known g h) {f : Flow T} (hf : Known g f)
    {s : FlowSet T × Network T}
    (he : (do
      let newFlows ← updateActiveFlows it f flows g
      let activeFlows := replaceAll it flows newFlows
      let bwGraph ← calculateBandwidthGraph it ar g activeFlows
      pure (activeFlows, bwGraph)) = .ok s) (k : Vertex.Id T × Vertex.Id T) :
    s.1.contains k = true ↔ flows.contains k = true ∨
      (k = f.key ∧ f.usedBandwidth ≠ 0 ∧ g.cells f.source f.destination ≠ []) := by
  obtain ⟨new, hnew, he⟩ := of_bind_eq_ok he
  obtain ⟨bw, -, he⟩ := of_bind_eq_ok he
  cases he
  have hkeys := (updateActiveFlows_keys it hg hflows hf).of_eq hnew k
  rw [contains_replaceAll, hkeys]
  constructor
  · rintro (⟨h, hh, c, hc, -⟩ | h)
    · rw [get?_withFlow, key_remember, usedBandwidth_remember] at hh
      split at hh <;> rename_i hk
      · split at hh <;> rename_i hused
        · cases hh
        · exact Or.inr ⟨hk, hused, List.ne_nil_of_mem hc⟩
      · exact Or.inl (by rw [KeySet.contains, hh]; rfl)
    · exact Or.inl h
  · rintro (h | ⟨hk, hused, hcells⟩)
    · exact Or.inr h
    · obtain ⟨c, hc⟩ := List.exists_mem_of_ne_nil _ hcells
      refine Or.inl ⟨remember flows f, ?_, c, hc, ?_⟩
      · rw [get?_withFlow, key_remember, usedBandwidth_remember, if_pos hk, if_neg hused]
      · rw [crosses_remember, crosses, decide_eq_true_eq]
        exact hc

theorem Known.congr {g : Network T} {f h : Flow T} (hf : Known g f) (hk : h.key = f.key) :
    Known g h := by
  obtain ⟨p, hp⟩ := hf
  simp only [Flow.key, Prod.mk.injEq] at hk
  refine ⟨p, ?_⟩
  rw [← hp, Network.mapTwo, Network.mapTwo, g.map_congr hk.1, g.map_congr hk.2]

theorem cells_congr (g : Network T) {f h : Flow T} (hk : h.key = f.key) :
    g.cells h.source h.destination = g.cells f.source f.destination := by
  simp only [Flow.key, Prod.mk.injEq] at hk
  rw [Network.cells, g.route_congr hk.1 hk.2, ← Network.cells]

theorem removeFlow_keys {it : Iter} {ar : Arith} {g : Network T} (hg : g.Wf) {flows : FlowSet T}
    {f : Flow T} (hflows : ∀ h ∈ flows.elems, h.key ≠ f.key → Known g h) (hf : Known g f)
    {s : FlowSet T × Network T} (he : removeFlow it ar flows f g = .ok s)
    (k : Vertex.Id T × Vertex.Id T) :
    s.1.contains k = true ↔ (flows.contains k = true ∧ k ≠ f.key) ∨
      (k = f.key ∧ f.usedBandwidth ≠ 0 ∧ g.cells f.source f.destination ≠ []) := by
  have hremove : (flows.remove f.key).contains k = true ↔ flows.contains k = true ∧ k ≠ f.key := by
    rw [KeySet.contains, KeySet.get?_remove, KeySet.contains]
    split <;> rename_i h <;> simp [h]
  rw [← hremove]
  refine write_keys hg (fun h hh => ?_) hf he k
  rw [KeySet.remove, KeySet.elems_filter, List.mem_filter, decide_eq_true_eq] at hh
  exact hflows h hh.1 hh.2

theorem updateFlows_keys {it : Iter} {ar : Arith} {g bw : Network T} (hg : g.Wf) {flows : FlowSet T}
    (hflows : ∀ h ∈ flows.elems, Known g h) {f : Flow T} (hf : Known g f)
    {s : FlowSet T × Network T} (he : updateFlows it ar flows f g bw = .ok s) :
    s = (flows, bw) ∨ ∀ k, s.1.contains k = true ↔ flows.contains k = true ∨
      (k = f.key ∧ f.usedBandwidth ≠ 0 ∧ g.cells f.source f.destination ≠ []) := by
  unfold updateFlows at he
  obtain ⟨o, -, he⟩ := of_bind_eq_ok he
  cases o with
  | none => cases he; exact Or.inl rfl
  | some b => exact Or.inr (write_keys hg hflows hf he)

/-! ## The remaining bandwidth -/

/-- What the flows that cross a cell use together. -/
def load (g : Network T) (flows : List (Flow T)) (c : Sym2 Nat) : Nat :=
  ((flows.filter (crosses g c)).map Flow.usedBandwidth).sum

theorem load_perm (g : Network T) {flows flows' : List (Flow T)} (h : flows.Perm flows')
    (c : Sym2 Nat) : load g flows c = load g flows' c :=
  ((h.filter _).map _).sum_eq

theorem load_append (g : Network T) (flows flows' : List (Flow T)) (c : Sym2 Nat) :
    load g (flows ++ flows') c = load g flows c + load g flows' c := by
  rw [load, List.filter_append, List.map_append, List.sum_append, ← load, ← load]

theorem load_singleton (g : Network T) (f : Flow T) (c : Sym2 Nat) :
    load g [f] c = if c ∈ g.cells f.source f.destination then f.usedBandwidth else 0 := by
  by_cases h : c ∈ g.cells f.source f.destination <;> simp [load, crosses, h]

/-- What is left of the links when these flows are taken off. -/
structure LeftOver (g : Network T) (flows : List (Flow T)) (bw : Network T) : Prop where
  rebanded : g.Rebanded bw
  wf : bw.Wf
  band : ∀ i j, i < g.links.n → j < g.links.n → bw.band i j + load g flows s(i, j) = g.band i j

theorem LeftOver.start {g : Network T} (hg : g.Wf) : LeftOver g [] g :=
  ⟨Network.Rebanded.refl g, hg, fun i j _ _ => by simp [load]⟩

def Fits (g : Network T) (flows : List (Flow T)) : Prop :=
  ∀ i j, i < g.links.n → j < g.links.n → load g flows s(i, j) ≤ g.band i j

theorem LeftOver.step (ar : Arith) {g bw : Network T} {pre : List (Flow T)} (h : LeftOver g pre bw)
    {f : Flow T} (hfit : Fits g (pre ++ [f])) (hcells : f.usedBandwidth ≠ 0 →
      ∀ c, c ∈ bw.cells f.source f.destination ↔ c ∈ g.cells f.source f.destination) :
    Returns (bw.updateEdgesAlongPathBy f.source f.destination fun oldSpeed =>
      ar.sub oldSpeed f.usedBandwidth) (LeftOver g (pre ++ [f])) := by
  have hle : ∀ i j, i < g.links.n → j < g.links.n → bw.band i j ≤ u32Max := by
    intro i j hi hj
    exact h.wf.band_le (by rw [h.rebanded.size]; exact hi) (by rw [h.rebanded.size]; exact hj)
  -- The flow fits in what the flows before it leave.
  have hroom : ∀ i j, i < g.links.n → j < g.links.n → s(i, j) ∈ bw.cells f.source f.destination →
      f.usedBandwidth ≤ bw.band i j := by
    intro i j hi hj hmem
    by_cases hused : f.usedBandwidth = 0
    · omega
    have h1 := hfit i j hi hj
    have h2 := h.band i j hi hj
    rw [load_append, load_singleton, if_pos ((hcells hused _).mp hmem)] at h1
    omega
  refine (Network.updateEdgesAlongPathBy_spec h.wf fun c hc => ?_).mono fun bw' hbw' => ?_
  · obtain ⟨cp, hcp, rfl⟩ := List.mem_map.mp hc
    obtain ⟨h1, h2, -⟩ := h.wf.route_lt cp hcp
    rw [h.rebanded.size] at h1 h2
    rw [Network.bandOf_mk, Arith.sub_of_le (hroom _ _ h1 h2 hc) (hle _ _ h1 h2), returns_ok]
    exact (Nat.sub_le _ _).trans (hle _ _ h1 h2)
  · refine ⟨h.rebanded.trans hbw'.rebanded, hbw'.wf, fun i j hi hj => ?_⟩
    have hon := hbw'.on i j (by rw [h.rebanded.size]; exact hi) (by rw [h.rebanded.size]; exact hj)
    have hoff := hbw'.off i j (by rw [h.rebanded.size]; exact hi) (by rw [h.rebanded.size]; exact hj)
    rw [← h.band i j hi hj, load_append, load_singleton]
    by_cases hmem : s(i, j) ∈ bw.cells f.source f.destination
    · have hsub := hroom i j hi hj hmem
      have hnew := hon hmem
      rw [Arith.sub_of_le hsub (hle i j hi hj), Except.ok.injEq] at hnew
      by_cases hused : f.usedBandwidth = 0
      · rw [← hnew, hused, ite_self]
        rfl
      · rw [if_pos ((hcells hused _).mp hmem)]
        omega
    · rw [hoff hmem]
      by_cases hused : f.usedBandwidth = 0
      · rw [hused, ite_self]
        rfl
      · rw [if_neg (mt (hcells hused _).mpr hmem)]
        rfl

theorem Fits.sublist {g : Network T} {flows part : List (Flow T)} (h : Fits g flows)
    (hpart : part.Sublist flows) : Fits g part :=
  fun i j hi hj => (((hpart.filter _).map _).sum_le_sum fun _ _ => Nat.zero_le _).trans (h i j hi hj)

/-- Flows that fit on every link leave the rest of each link, if no path changes on the way. -/
theorem calculateBandwidthGraph_leftOver (it : Iter) (ar : Arith) {g : Network T} (hg : g.Wf)
    {flows : FlowSet T} (hfit : Fits g flows.elems)
    (hsteady : ∀ pre f post bw, it.order flows.elems = pre ++ f :: post → LeftOver g pre bw →
      f.usedBandwidth ≠ 0 →
        ∀ c, c ∈ bw.cells f.source f.destination ↔ c ∈ g.cells f.source f.destination) :
    Returns (calculateBandwidthGraph it ar g flows) (LeftOver g flows.elems) := by
  have hperm : ∀ i j, load g (it.order flows.elems) s(i, j) = load g flows.elems s(i, j) :=
    fun i j => load_perm g (it.perm flows.elems) s(i, j)
  unfold calculateBandwidthGraph
  refine (Returns.foldlM (LeftOver g) (LeftOver.start hg) ?_).mono fun bw h =>
    ⟨h.rebanded, h.wf, fun i j hi hj => hperm i j ▸ h.band i j hi hj⟩
  intro pre f post bw hx hbw
  have hall : Fits g (it.order flows.elems) := fun i j hi hj => hperm i j ▸ hfit i j hi hj
  refine hbw.step ar (hall.sublist ?_) (hsteady pre f post bw hx hbw)
  rw [hx, List.append_cons pre f post]
  exact List.sublist_append_left _ _

theorem calculateBandwidthGraph_spec (it : Iter) (ar : Arith) {g : Network T} (hg : g.Wf)
    (hs : g.pathStrategy = .shortestPath) {flows : FlowSet T} (hfit : Fits g flows.elems) :
    Returns (calculateBandwidthGraph it ar g flows) (LeftOver g flows.elems) :=
  calculateBandwidthGraph_leftOver it ar hg hfit fun _ f _ _ _ h _ c => by
    rw [h.rebanded.cells hg hs f.source f.destination]

theorem calculateBandwidthGraph_wrapping (it : Iter) {g : Network T} (hg : g.Wf) (flows : FlowSet T) :
    Returns (calculateBandwidthGraph it .wrapping g flows) fun bw => g.Rebanded bw ∧ bw.Wf := by
  unfold calculateBandwidthGraph
  refine Returns.foldlM_inv _ ⟨Network.Rebanded.refl g, hg⟩ fun f _ bw hbw => ?_
  refine (Network.updateEdgesAlongPathBy_spec hbw.2 fun c _ => ?_).mono fun bw' h =>
    ⟨hbw.1.trans h.rebanded, h.wf⟩
  simp only [Arith.sub, returns_ok, u32Max]
  omega

end Bwsync

end Kollaps
