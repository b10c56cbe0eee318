import Kollaps.Netgraph.Route

/-!
# What the library does along a path

`get_path_between` gives the links of the route, `update_edges_along_path_by` changes their
bandwidths and nothing else, and under `ShortestPath` no bandwidth has a say in the route.
-/

namespace Kollaps

open Run

def Link.cell {T : Type} (l : Link T) : Sym2 Nat := s(l.internalSource, l.internalDestination)

namespace Network

variable {T : Type} [Vertex T]

/-! ## The links of a network -/

def HasLink (g : Network T) (l : Link T) : Prop :=
  ∃ i j, i < g.links.n ∧ j < g.links.n ∧ g.links.entry i j = some l

def bandOf (g : Network T) : Sym2 Nat → Nat := Sym2.lift ⟨g.band, g.band_comm⟩

@[simp] theorem bandOf_mk (g : Network T) (i j : Nat) : g.bandOf s(i, j) = g.band i j := rfl

theorem entry_congr (g : Network T) {i j i' j' : Nat} (h : s(i, j) = s(i', j')) :
    g.links.entry i j = g.links.entry i' j' := by
  rw [Sym2.eq_iff] at h
  rcases h with ⟨rfl, rfl⟩ | ⟨rfl, rfl⟩
  · rfl
  · exact g.links.entry_comm _ _

theorem Shaped.cell_eq {g : Network T} (hg : g.Shaped) {i j : Nat} {l : Link T}
    (hi : i < g.links.n) (hj : j < g.links.n) (hl : g.links.entry i j = some l) :
    l.cell = s(i, j) :=
  (hg.ends i j l hi hj hl).1

theorem Wf.cell_eq {g : Network T} (hg : g.Wf) {i j : Nat} {l : Link T} (hi : i < g.links.n)
    (hj : j < g.links.n) (hl : g.links.entry i j = some l) : l.cell = s(i, j) :=
  hg.shaped.cell_eq hi hj hl

theorem Wf.bandOf_cell {g : Network T} (hg : g.Wf) {l : Link T} (h : g.HasLink l) :
    g.bandOf l.cell = l.bandwidth := by
  obtain ⟨i, j, hi, hj, hl⟩ := h
  rw [hg.cell_eq hi hj hl, bandOf_mk, band, hl]

theorem Shaped.key_eq_iff {g : Network T} (hg : g.Shaped) {l l' : Link T} (h : g.HasLink l)
    (h' : g.HasLink l') : l.key = l'.key ↔ l.cell = l'.cell := by
  obtain ⟨i, j, hi, hj, hl⟩ := h
  obtain ⟨i', j', hi', hj', hl'⟩ := h'
  rw [hg.cell_eq hi hj hl, hg.cell_eq hi' hj' hl']
  constructor
  · exact hg.key_inj hi hj hi' hj' hl hl'
  · intro hs
    rw [g.entry_congr hs, hl'] at hl
    cases hl
    rfl

theorem Wf.key_eq_iff {g : Network T} (hg : g.Wf) {l l' : Link T} (h : g.HasLink l)
    (h' : g.HasLink l') : l.key = l'.key ↔ l.cell = l'.cell :=
  hg.shaped.key_eq_iff h h'

/-! ## Paths -/

structure PathOf (g : Network T) (a b : T) (p : Path T) : Prop where
  links : p.links = p.linksSet.elems
  hasLink : ∀ l ∈ p.linksSet.elems, g.HasLink l
  cells : p.linksSet.elems.map Link.cell = (g.cells a b).reverse

theorem getPathBetween_spec {g : Network T} (hg : g.Shaped) {a b : T} {i j : Nat}
    (hm : g.mapTwo a b = some (i, j)) :
    Returns (g.getPathBetween a b) fun o => ∃ p, o = some p ∧ g.PathOf a b p := by
  obtain ⟨hi, hj⟩ := hg.mapTwo_lt hm
  obtain ⟨r, hr, -, hchain, hlen, hall⟩ := g.routeFrom_spec hi hj
  have hnd := hg.nodup_cells a b
  unfold getPathBetween
  rw [cells, route_eq hm] at hnd
  rw [hm]
  simp only
  rw [hr, bind_ok]
  rw [walkBack_eq hchain hlen]
  have hfold := Returns.foldlM (l := g.routeFrom i j)
    (f := fun (acc : List (Link T) × LinkSet T) (cp : Nat × Nat) => do
      let link ← unwrap (← g.links.index cp.2 cp.1)
      if acc.2.contains link.key then .error .assertion
      else pure (acc.1 ++ [link], acc.2.insert link))
    (s := ([], KeySet.empty))
    (fun pre acc => acc.2.elems = acc.1.reverse ∧ (∀ l ∈ acc.1, g.HasLink l) ∧
      acc.1.map Link.cell = cellsOf pre) ⟨rfl, by simp, rfl⟩
    (by
      rintro pre cp post ⟨links, set⟩ hx ⟨helems, hlinks, hcells⟩
      simp only at helems hlinks hcells ⊢
      obtain ⟨hc, hp, hadj⟩ := hall cp (by rw [hx]; simp)
      obtain ⟨⟨l, hl⟩, -⟩ := adj_iff.mp hadj
      have hlink : g.HasLink l := ⟨cp.2, cp.1, hp, hc, hl⟩
      have hcell : l.cell = s(cp.1, cp.2) := (hg.cell_eq hp hc hl).trans Sym2.eq_swap
      rw [g.links.index_eq hp hc, hl, bind_ok, unwrap_some, bind_ok]
      have hnew : set.contains l.key = false := by
        rw [Bool.eq_false_iff]
        intro hcon
        obtain ⟨l', hl', hk⟩ := List.mem_map.mp (KeySet.contains_iff.mp hcon)
        rw [helems, List.mem_reverse] at hl'
        rw [hg.key_eq_iff (hlinks l' hl') hlink, hcell] at hk
        rw [hx, cellsOf_append, ← hcells] at hnd
        exact (List.nodup_append.mp hnd).2.2 _ (List.mem_map_of_mem hl') _
          (by simp) hk
      rw [hnew]
      simp only [Bool.false_eq_true, if_false, returns_pure]
      refine ⟨?_, ?_, ?_⟩
      · rw [KeySet.elems_insert hnew, helems, List.reverse_append, List.reverse_singleton,
          List.singleton_append]
      · intro l' hl'
        rw [List.mem_append, List.mem_singleton] at hl'
        rcases hl' with hl' | rfl
        · exact hlinks l' hl'
        · exact hlink
      · rw [List.map_append, hcells, List.map_singleton, hcell, cellsOf_append]; rfl)
  refine hfold.bind fun acc hacc => ?_
  obtain ⟨helems, hlinks, hcells⟩ := hacc
  rw [returns_pure]
  refine ⟨_, rfl, helems.symm, ?_, ?_⟩
  · intro l hl
    simp only [helems, List.mem_reverse] at hl
    exact hlinks l hl
  · simp only [helems, List.map_reverse, hcells, cells, route_eq hm]

theorem PathOf.contains_iff {g : Network T} (hg : g.Wf) {a b : T} {p : Path T} (h : g.PathOf a b p)
    {l : Link T} (hl : g.HasLink l) :
    p.linksSet.contains l.key = true ↔ l.cell ∈ g.cells a b := by
  have hcell : l.cell ∈ g.cells a b ↔ l.cell ∈ (g.cells a b).reverse := List.mem_reverse.symm
  rw [KeySet.contains_iff, hcell, ← h.cells, KeySet.keys, List.mem_map, List.mem_map]
  constructor
  · rintro ⟨l', hl', hk⟩
    exact ⟨l', hl', (hg.key_eq_iff (h.hasLink l' hl') hl).mp hk⟩
  · rintro ⟨l', hl', hk⟩
    exact ⟨l', hl', (hg.key_eq_iff (h.hasLink l' hl') hl).mpr hk⟩

/-! ## Changing bandwidths -/

/-- The same network but for the bandwidths of its links. -/
structure Rebanded (g g' : Network T) : Prop where
  mapper : g'.mapper = g.mapper
  pathStrategy : g'.pathStrategy = g.pathStrategy
  size : g'.links.n = g.links.n
  entry : ∀ i j, i < g.links.n → j < g.links.n →
    ∃ b, g'.links.entry i j = (g.links.entry i j).map fun l => { l with linkBandwidth := b }

namespace Rebanded

variable {g g' g'' : Network T}

theorem refl (g : Network T) : g.Rebanded g := by
  refine ⟨rfl, rfl, rfl, fun i j _ _ => ?_⟩
  cases g.links.entry i j with
  | none => exact ⟨0, rfl⟩
  | some l => exact ⟨l.linkBandwidth, rfl⟩

theorem trans (h : g.Rebanded g') (h' : g'.Rebanded g'') : g.Rebanded g'' := by
  refine ⟨h'.mapper.trans h.mapper, h'.pathStrategy.trans h.pathStrategy, h'.size.trans h.size,
    fun i j hi hj => ?_⟩
  obtain ⟨b, hb⟩ := h.entry i j hi hj
  obtain ⟨b', hb'⟩ := h'.entry i j (by rw [h.size]; exact hi) (by rw [h.size]; exact hj)
  refine ⟨b', ?_⟩
  rw [hb', hb, Option.map_map]
  rfl

theorem symm (h : g.Rebanded g') : g'.Rebanded g := by
  refine ⟨h.mapper.symm, h.pathStrategy.symm, h.size.symm, fun i j hi hj => ?_⟩
  rw [h.size] at hi hj
  obtain ⟨b, hb⟩ := h.entry i j hi hj
  obtain ⟨b', hb'⟩ := (refl g).entry i j hi hj
  refine ⟨b', ?_⟩
  rw [hb, Option.map_map]
  exact hb'

theorem entry_eq (h : g.Rebanded g') (hg : g.Wf) {i j : Nat} (hi : i < g.links.n) (hj : j < g.links.n) :
    g'.links.entry i j = (g.links.entry i j).map fun l => { l with linkBandwidth := g'.band i j } := by
  obtain ⟨b, hb⟩ := h.entry i j hi hj
  rw [band, hb]
  cases hl : g.links.entry i j with
  | none => rfl
  | some l =>
    simp only [Option.map_some, Link.bandwidth, (hg.full i j l hi hj hl).1]

theorem eq_of_band (h : g.Rebanded g') (h' : g.Rebanded g'') (hg : g.Wf)
    (hband : ∀ i j, i < g.links.n → j < g.links.n → g'.band i j = g''.band i j) : g' = g'' := by
  have hlinks : g'.links = g''.links := by
    apply SymMatrix.ext_entry (h.size.trans h'.size.symm)
    intro i j hi hj
    rw [h'.size] at hi hj
    rw [h.entry_eq hg hi hj, h'.entry_eq hg hi hj, hband i j hi hj]
  have hmapper := h.mapper.trans h'.mapper.symm
  have hstrategy := h.pathStrategy.trans h'.pathStrategy.symm
  cases g'
  cases g''
  simp_all

theorem mapTwo (h : g.Rebanded g') (a b : T) : g'.mapTwo a b = g.mapTwo a b := by
  simp only [Network.mapTwo, Network.map, h.mapper]

theorem adj (h : g.Rebanded g') {i j : Nat} (hi : i < g.links.n) (hj : j < g.links.n) :
    g'.adj i j = g.adj i j := by
  obtain ⟨b, hb⟩ := h.entry i j hi hj
  simp only [Network.adj, hb, Option.isSome_map]

theorem neighbours (h : g.Rebanded g') {i : Nat} (hi : i < g.links.n) :
    g'.neighbours i = g.neighbours i := by
  rw [neighbours_eq g hi, neighbours_eq g' (by rw [h.size]; exact hi), h.size]
  congr 1
  apply List.filter_congr
  intro j hj
  exact h.adj hi (List.mem_range.mp hj)

end Rebanded

theorem updateBandwidthInter_rebanded {g : Network T} {i j : Nat} (hi : i < g.links.n)
    (hj : j < g.links.n) (hadj : g.adj i j = true) (bandwidth : Nat) :
    Returns (g.updateBandwidthInter i j bandwidth) fun g' => g.Rebanded g' ∧
      ∀ i' j', i' < g.links.n → j' < g.links.n → g'.links.entry i' j' =
        if s(i', j') = s(i, j) then
          (g.links.entry i' j').map fun l => { l with linkBandwidth := bandwidth }
        else g.links.entry i' j' := by
  obtain ⟨⟨l, hl⟩, -⟩ := adj_iff.mp hadj
  obtain ⟨links, hset, hn, hentry⟩ := g.links.setIndex_spec hi hj (some { l with linkBandwidth := bandwidth })
  have heq : g.updateBandwidthInter i j bandwidth = .ok { g with links } := by
    unfold updateBandwidthInter
    rw [g.links.index_eq hi hj, hl, bind_ok]
    simp only
    rw [hset]
    rfl
  have hnew : ∀ i' j', i' < g.links.n → j' < g.links.n → links.entry i' j' =
      if s(i', j') = s(i, j) then
        (g.links.entry i' j').map fun l => { l with linkBandwidth := bandwidth }
      else g.links.entry i' j' := by
    intro i' j' hi' hj'
    have hiff : s(i', j') = s(i, j) ↔ (i' = i ∧ j' = j) ∨ (i' = j ∧ j' = i) := by rw [Sym2.eq_iff]
    rw [hentry i' j' hi' hj']
    by_cases hc : s(i', j') = s(i, j)
    · rw [if_pos hc, if_pos (hiff.mp hc), g.entry_congr hc, hl]
      rfl
    · rw [if_neg hc, if_neg (mt hiff.mpr hc)]
  refine ⟨_, heq, ⟨rfl, rfl, hn, fun i' j' hi' hj' => ?_⟩, hnew⟩
  rw [hnew i' j' hi' hj']
  split
  · exact ⟨bandwidth, rfl⟩
  · exact (Rebanded.refl g).entry i' j' hi' hj'

theorem updateBandwidthInter_spec {g : Network T} (hg : g.Wf) {i j bandwidth : Nat}
    (hi : i < g.links.n) (hj : j < g.links.n) (hadj : g.adj i j = true) (hb : bandwidth ≤ u32Max) :
    Returns (g.updateBandwidthInter i j bandwidth) fun g' => g.Rebanded g' ∧ g'.Wf ∧
      ∀ i' j', i' < g.links.n → j' < g.links.n →
        g'.band i' j' = if s(i', j') = s(i, j) then bandwidth else g.band i' j' := by
  obtain ⟨g', heq, hreb, hentry⟩ := updateBandwidthInter_rebanded hi hj hadj bandwidth
  refine ⟨g', heq, hreb, (updateBandwidthInter_wf hg hi hj hb heq).1, ?_⟩
  intro i' j' hi' hj'
  rw [band, hentry i' j' hi' hj']
  by_cases hc : s(i', j') = s(i, j)
  · obtain ⟨⟨l, hl⟩, -⟩ := adj_iff.mp hadj
    rw [if_pos hc, if_pos hc, g.entry_congr hc, hl, Option.map_some]
    simp only [Link.bandwidth, (hg.full i j l hi hj hl).1]
  · rw [if_neg hc, if_neg hc, ← band]

theorem updateEdgesAlongPathBy_eq {g : Network T} (hg : g.Shaped) {a b : T} {func : Nat → Run Nat} :
    g.updateEdgesAlongPathBy a b func = (g.route a b).foldlM (fun g cp => do
      let link ← unwrap (← g.links.index cp.2 cp.1)
      g.updateBandwidthInter cp.2 cp.1 (← func link.bandwidth)) g := by
  unfold updateEdgesAlongPathBy
  cases hm : g.mapTwo a b with
  | none => rw [route, hm]; rfl
  | some p =>
    obtain ⟨i, j⟩ := p
    obtain ⟨hi, hj⟩ := hg.mapTwo_lt hm
    obtain ⟨r, hr, -, hchain, hlen, -⟩ := g.routeFrom_spec hi hj
    simp only
    rw [hr, bind_ok, route_eq hm]
    exact walkBack_eq hchain hlen g _

/-- The links of these steps have their new bandwidths, and the others their old ones. -/
structure Along (g : Network T) (func : Nat → Run Nat) (cells : List (Sym2 Nat)) (g' : Network T) :
    Prop where
  rebanded : g.Rebanded g'
  wf : g'.Wf
  on : ∀ i j, i < g.links.n → j < g.links.n → s(i, j) ∈ cells → func (g.band i j) = .ok (g'.band i j)
  off : ∀ i j, i < g.links.n → j < g.links.n → s(i, j) ∉ cells → g'.band i j = g.band i j

theorem Along.start {g : Network T} (hg : g.Wf) (func : Nat → Run Nat) : g.Along func [] g :=
  ⟨Rebanded.refl g, hg, fun i j _ _ h => by simp at h, fun _ _ _ _ _ => rfl⟩

/-- One link more. It still has its old bandwidth, since no link comes twice on a route. -/
theorem Along.step {g g' : Network T} (hg : g.Wf) {a b : T} {func : Nat → Run Nat}
    {pre post : List (Nat × Nat)} {cp : Nat × Nat} (hx : g.route a b = pre ++ cp :: post)
    (h : g.Along func (cellsOf pre) g') :
    ∃ l, g'.links.index cp.2 cp.1 = .ok (some l) ∧ l.bandwidth = g.bandOf s(cp.1, cp.2) ∧
      ∀ y, y ≤ u32Max → func l.bandwidth = .ok y →
        Returns (g'.updateBandwidthInter cp.2 cp.1 y) (g.Along func (cellsOf (pre ++ [cp]))) := by
  obtain ⟨hc, hp, hadj⟩ := hg.route_lt cp (by rw [hx]; simp)
  have hc' : cp.1 < g'.links.n := by rw [h.rebanded.size]; exact hc
  have hp' : cp.2 < g'.links.n := by rw [h.rebanded.size]; exact hp
  have hadj' : g'.adj cp.2 cp.1 = true := by rw [h.rebanded.adj hp hc]; exact hadj
  obtain ⟨⟨l, hl⟩, -⟩ := adj_iff.mp hadj'
  have hfresh : s(cp.2, cp.1) ∉ cellsOf pre := by
    have hnd := hg.nodup_cells a b
    rw [cells, hx, cellsOf_append] at hnd
    intro hmem
    exact (List.nodup_append.mp hnd).2.2 _ hmem s(cp.1, cp.2) (by simp) Sym2.eq_swap
  have hlb : l.bandwidth = g.band cp.2 cp.1 := by
    rw [← h.off cp.2 cp.1 hp hc hfresh, band, hl]
  refine ⟨l, by rw [g'.links.index_eq hp' hc', hl], by rw [hlb, bandOf_mk, band_comm], fun y hy hfunc => ?_⟩
  refine (updateBandwidthInter_spec h.wf hp' hc' hadj' hy).mono fun g'' h'' => ?_
  obtain ⟨hreb', hg'', hband'⟩ := h''
  have hsplit : ∀ c, c ∈ cellsOf (pre ++ [cp]) ↔ c ∈ cellsOf pre ∨ c = s(cp.2, cp.1) := by
    intro c
    rw [cellsOf_append, List.mem_append, cellsOf_cons, cellsOf_nil, List.mem_singleton,
      show s(cp.1, cp.2) = s(cp.2, cp.1) from Sym2.eq_swap]
  refine ⟨h.rebanded.trans hreb', hg'', fun i j hi hj hmem => ?_, fun i j hi hj hmem => ?_⟩
  · rw [hband' i j (by rw [h.rebanded.size]; exact hi) (by rw [h.rebanded.size]; exact hj)]
    rw [hsplit] at hmem
    by_cases hcell : s(i, j) = s(cp.2, cp.1)
    · rw [if_pos hcell, ← bandOf_mk, hcell, bandOf_mk, ← hlb]
      exact hfunc
    · rw [if_neg hcell]
      exact h.on i j hi hj (hmem.resolve_right hcell)
  · rw [hsplit, not_or] at hmem
    rw [hband' i j (by rw [h.rebanded.size]; exact hi) (by rw [h.rebanded.size]; exact hj), if_neg hmem.2]
    exact h.off i j hi hj hmem.1

/-- Each link on the route gets its new bandwidth, once; the others keep theirs. -/
theorem updateEdgesAlongPathBy_spec {g : Network T} (hg : g.Wf) {a b : T} {func : Nat → Run Nat}
    (hfunc : ∀ c ∈ g.cells a b, Returns (func (g.bandOf c)) (· ≤ u32Max)) :
    Returns (g.updateEdgesAlongPathBy a b func) (g.Along func (g.cells a b)) := by
  rw [updateEdgesAlongPathBy_eq hg.shaped]
  refine Returns.foldlM (fun pre => g.Along func (cellsOf pre)) (Along.start hg func) ?_
  intro pre cp post g' hx hg'
  obtain ⟨l, hl, hlb, hnext⟩ := hg'.step hg hx
  obtain ⟨y, hy, hyle⟩ := hfunc s(cp.1, cp.2) (by simp [cells, hx])
  rw [← hlb] at hy
  rw [hl, bind_ok, unwrap_some, bind_ok, hy, bind_ok]
  exact hnext y hyle hy

theorem updateEdgesAlongPathBy_ok {g g' : Network T} (hg : g.Wf) {a b : T} {func : Nat → Run Nat}
    (hfunc : ∀ x y, x ≤ u32Max → func x = .ok y → y ≤ u32Max)
    (he : g.updateEdgesAlongPathBy a b func = .ok g') : g.Along func (g.cells a b) g' := by
  rw [updateEdgesAlongPathBy_eq hg.shaped] at he
  refine foldlM_ok_done (fun pre => g.Along func (cellsOf pre)) (Along.start hg func) ?_ he
  intro pre cp post g₁ g₂ hx hg₁ hstep
  obtain ⟨l, hl, hlb, hnext⟩ := hg₁.step hg hx
  rw [hl, bind_ok, unwrap_some, bind_ok] at hstep
  obtain ⟨y, hy, hstep⟩ := of_bind_eq_ok hstep
  obtain ⟨hc, hp, -⟩ := hg.route_lt cp (by rw [hx]; simp)
  refine (hnext y (hfunc _ y ?_ hy) hy).of_eq hstep
  rw [hlb, bandOf_mk]
  exact hg.band_le hc hp

theorem Built.wf {g : Network T} (h : Built g) : g.Wf := by
  induction h with
  | new h => exact new_wf h
  | addEdge _ hb he ih => exact addEdge_wf ih hb he
  | addEdgeWithProps _ hb he ih => exact addEdgeWithProps_wf ih hb he
  | updateBandwidth _ hb he ih => exact updateBandwidth_wf ih hb he
  | updateEdgesAlongPathBy _ hf he ih => exact (updateEdgesAlongPathBy_ok ih hf he).wf
  | editVertex v _ ih => exact editVertex_wf ih v

/-! ## Shortest paths do not look at bandwidths -/

theorem Rebanded.shortestRound {g g' : Network T} (h : g.Rebanded g') {s : Search}
    (hs : ∀ q ∈ s.toVisit, q.node < g.links.n) : g'.shortestRound s = g.shortestRound s := by
  unfold Network.shortestRound
  cases hpop : heapPop s.toVisit with
  | none => rfl
  | some r => simp only [h.neighbours (hs r.1 (heapPop_spec hpop).1)]

theorem Rebanded.shortestPath {g g' : Network T} (h : g.Rebanded g') {src : Nat}
    (hsrc : src < g.links.n) : g'.shortestPath src = g.shortestPath src := by
  rw [g.shortestPath_eq hsrc, g'.shortestPath_eq (by rw [h.size]; exact hsrc), h.size]
  refine loop_congr (g.SearchInv src fun _ _ => False) (g.searchStart_inv hsrc) ?_ ?_
  · intro s s' hI hs'
    exact ((shortestRound_spec hI).of_eq hs').1
  · intro s hI
    exact h.shortestRound fun q hq => (hI.queue q hq).1

theorem Rebanded.route {g g' : Network T} (h : g.Rebanded g') (hg : g.Wf)
    (hs : g.pathStrategy = .shortestPath) (a b : T) : g'.route a b = g.route a b := by
  unfold Network.route
  rw [h.mapTwo]
  cases hm : g.mapTwo a b with
  | none => rfl
  | some p =>
    obtain ⟨hi, -⟩ := hg.mapTwo_lt hm
    simp only [routeFrom, pathBetween, h.pathStrategy, hs, h.shortestPath hi]

theorem Rebanded.cells {g g' : Network T} (h : g.Rebanded g') (hg : g.Wf)
    (hs : g.pathStrategy = .shortestPath) (a b : T) : g'.cells a b = g.cells a b := by
  rw [Network.cells, h.route hg hs, ← Network.cells]

/-! ## The bandwidth of a path -/

def bottleneck (g : Network T) (a b : T) : Nat :=
  (g.cells a b).foldl (fun speed c => min speed (g.bandOf c)) u32Max

theorem IsChain.first {parents : List (Option Nat)} {v : Nat} {steps : List (Nat × Nat)}
    (h : IsChain parents v steps) :
    ∃ o, get parents v = .ok o ∧ (o = none ↔ steps = []) := by
  cases steps with
  | nil => exact ⟨none, get_eq_ok.mpr h, by simp⟩
  | cons cp steps => exact ⟨some cp.2, get_eq_ok.mpr h.2.1, by simp⟩

theorem foldlM_least {σ : Type} {g : Network T} {steps : List (Nat × Nat)} (speed : σ → Nat)
    (narrow : σ → Link T → σ) {s : σ}
    (hall : ∀ cp ∈ steps, cp.1 < g.links.n ∧ cp.2 < g.links.n ∧ g.adj cp.2 cp.1 = true)
    (hs : speed s = u32Max) (hnarrow : ∀ s link, speed (narrow s link) = min (speed s) link.bandwidth) :
    Returns (steps.foldlM (fun s cp => do
      let link ← unwrap (← g.links.index cp.1 cp.2)
      pure (narrow s link)) s) fun s' =>
        speed s' = (cellsOf steps).foldl (fun speed c => min speed (g.bandOf c)) u32Max := by
  refine Returns.foldlM (fun pre s => speed s = (cellsOf pre).foldl
    (fun speed c => min speed (g.bandOf c)) u32Max) hs ?_
  intro pre cp post s hx hspeed
  obtain ⟨hc, hp, hadj⟩ := hall cp (by rw [hx]; simp)
  obtain ⟨⟨l, hl⟩, -⟩ := adj_iff.mp hadj
  rw [g.links.index_eq hc hp, g.links.entry_comm, hl, bind_ok, unwrap_some, bind_ok, returns_pure,
    hnarrow, hspeed,
    cellsOf_append, List.foldl_append, cellsOf_cons, cellsOf_nil, List.foldl_cons, List.foldl_nil,
    bandOf_mk, band_comm, band, hl]

theorem bandwidthBetween_spec {g : Network T} (hg : g.Shaped) (hs : g.pathStrategy = .shortestPath)
    (a b : T) : Returns (g.bandwidthBetween a b) fun o =>
      o = if g.route a b = [] then none else some (g.bottleneck a b) := by
  unfold bandwidthBetween
  cases hm : g.mapTwo a b with
  | none => simp [route, hm]
  | some p =>
    obtain ⟨i, j⟩ := p
    obtain ⟨hi, hj⟩ := hg.mapTwo_lt hm
    obtain ⟨r, hr, -, hchain, hlen, hall⟩ := g.routeFrom_spec hi hj
    obtain ⟨o, ho, hnone⟩ := IsChain.first hchain
    simp only
    rw [hr, bind_ok, route_eq hm]
    simp only [hs, ho, bind_ok]
    cases o with
    | none => simp only [returns_pure]; rw [if_pos (hnone.mp rfl)]
    | some q =>
      simp only
      rw [if_neg (mt hnone.mpr (by simp)), walkBack_eq hchain hlen]
      refine Returns.bind (P := fun speed => speed = g.bottleneck a b) ?_ fun speed h => by
        rw [returns_pure, h]
      unfold bottleneck cells
      rw [route_eq hm]
      exact foldlM_least id (fun speed link => min speed link.bandwidth) hall rfl fun _ _ => rfl

theorem mapTwo_of_propertiesBetween {g : Network T} {a b : T} {props : Properties}
    (h : g.propertiesBetween a b = .ok (some props)) : ∃ p, g.mapTwo a b = some p := by
  unfold propertiesBetween at h
  cases hm : g.mapTwo a b with
  | none => rw [hm] at h; cases h
  | some p => exact ⟨p, rfl⟩

theorem route_ne_nil {g : Network T} (hg : g.Wf) {a b : T} {props : Properties}
    (h : g.propertiesBetween a b = .ok (some props)) : g.route a b ≠ [] := by
  unfold propertiesBetween at h
  cases hm : g.mapTwo a b with
  | none => rw [hm] at h; cases h
  | some p =>
    obtain ⟨i, j⟩ := p
    obtain ⟨hi, hj⟩ := hg.mapTwo_lt hm
    obtain ⟨r, hr, -, hchain, -, -⟩ := g.routeFrom_spec hi hj
    obtain ⟨o, ho, hnone⟩ := IsChain.first hchain
    rw [hm] at h
    simp only at h
    rw [hr, bind_ok] at h
    simp only [ho, bind_ok] at h
    rw [route_eq hm]
    intro hnil
    rw [hnone.mpr hnil] at h
    cases h

theorem Wf.adj_of_mem_cells {g : Network T} (hg : g.Wf) {a b : T} {i j : Nat}
    (h : s(i, j) ∈ g.cells a b) : g.adj i j = true := by
  obtain ⟨cp, hcp, heq⟩ := List.mem_map.mp h
  obtain ⟨-, -, hadj⟩ := hg.route_lt cp hcp
  rw [Sym2.eq_iff] at heq
  rcases heq with ⟨h1, h2⟩ | ⟨h1, h2⟩
  · rw [← h1, ← h2, adj_symm]; exact hadj
  · rw [← h1, ← h2]; exact hadj

end Network

end Kollaps
