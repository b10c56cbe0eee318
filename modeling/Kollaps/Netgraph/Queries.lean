import Kollaps.Netgraph.Optimal

/-!
# Updates along a path, and questions about it

`update_edges_along_path_by` touches the links that `get_path_between` gives, each once. The
path queries agree between vertices that are connected. Between others `get_path_between`
gives an empty path where its siblings give nothing.
-/

namespace Kollaps

open Run

namespace Network

variable {T : Type} [Vertex T] {g : Network T}

/-! ## The update -/

/-- What a walk with `func` over these cells has done to each link so far. -/
def Walked (g : Network T) (func : Nat → Run Nat) (cells : List (Sym2 Nat)) (g' : Network T) : Prop :=
  ∀ i j, i < g.links.n → j < g.links.n →
    (s(i, j) ∉ cells → g'.links.entry i j = g.links.entry i j) ∧
    ∀ l, s(i, j) ∈ cells → g.links.entry i j = some l →
      Returns (func l.bandwidth) fun y => g'.links.entry i j = some { l with linkBandwidth := y }

theorem updateEdgesAlongPathBy_walked (hg : g.Shaped) {a b : T} {func : Nat → Run Nat}
    (hfunc : ∀ c ∈ g.cells a b, Returns (func (g.bandOf c)) fun _ => True) :
    Returns (g.updateEdgesAlongPathBy a b func) fun g' =>
      g.Rebanded g' ∧ g.Walked func (g.cells a b) g' := by
  rw [updateEdgesAlongPathBy_eq hg]
  have hnd := hg.nodup_cells a b
  refine Returns.foldlM (fun pre g' => g.Rebanded g' ∧ g.Walked func (cellsOf pre) g')
    ⟨Rebanded.refl g, fun i j _ _ => ⟨fun _ => rfl, fun l h => by simp at h⟩⟩ ?_
  rintro pre cp post g' hx ⟨hreb, hwalked⟩
  obtain ⟨hc, hp, hadj⟩ := hg.route_lt cp (by rw [hx]; simp)
  obtain ⟨⟨l, hl⟩, -⟩ := adj_iff.mp hadj
  have hswap : s(cp.1, cp.2) = s(cp.2, cp.1) := Sym2.eq_swap
  -- The route comes to the cell for the first time.
  have hfresh : s(cp.2, cp.1) ∉ cellsOf pre := by
    rw [cells, hx, cellsOf_append] at hnd
    intro hmem
    exact (List.nodup_append.mp hnd).2.2 _ hmem s(cp.1, cp.2) (by simp) hswap.symm
  have hl' : g'.links.entry cp.2 cp.1 = some l := ((hwalked cp.2 cp.1 hp hc).1 hfresh).trans hl
  have hband : g.bandOf s(cp.1, cp.2) = l.bandwidth := by rw [hswap, bandOf_mk, band, hl]
  obtain ⟨y, hy, -⟩ := hfunc s(cp.1, cp.2) (by simp [cells, hx])
  rw [hband] at hy
  rw [g'.links.index_eq (by rw [hreb.size]; exact hp) (by rw [hreb.size]; exact hc), hl', bind_ok,
    unwrap_some, bind_ok, hy, bind_ok]
  refine (updateBandwidthInter_rebanded (by rw [hreb.size]; exact hp) (by rw [hreb.size]; exact hc)
    (by rw [hreb.adj hp hc]; exact hadj) y).mono fun g'' h => ⟨hreb.trans h.1, fun i j hi hj => ?_⟩
  rw [h.2 i j (by rw [hreb.size]; exact hi) (by rw [hreb.size]; exact hj), cellsOf_append,
    List.mem_append, cellsOf_cons, cellsOf_nil, List.mem_singleton, hswap]
  obtain ⟨hold, hnew⟩ := hwalked i j hi hj
  by_cases hcell : s(i, j) = s(cp.2, cp.1)
  · rw [if_pos hcell, hold (hcell ▸ hfresh), g.entry_congr hcell, hl]
    refine ⟨fun hnot => absurd (Or.inr hcell) hnot, fun l' _ heq => ?_⟩
    cases heq
    exact ⟨y, hy, rfl⟩
  · rw [if_neg hcell]
    exact ⟨fun hnot => hold fun hmem => hnot (Or.inl hmem),
      fun l' hmem => hnew l' (hmem.resolve_right hcell)⟩

theorem PathOf.mem_links_iff (hg : g.Shaped) {a b : T} {p : Path T} (h : g.PathOf a b p) {i j : Nat}
    {l : Link T} (hi : i < g.links.n) (hj : j < g.links.n) (hl : g.links.entry i j = some l) :
    l ∈ p.links ↔ s(i, j) ∈ g.cells a b := by
  have hcells : s(i, j) ∈ g.cells a b ↔ s(i, j) ∈ p.linksSet.elems.map Link.cell := by
    rw [h.cells, List.mem_reverse]
  rw [h.links, hcells, List.mem_map]
  constructor
  · intro hmem
    exact ⟨l, hmem, hg.cell_eq hi hj hl⟩
  · rintro ⟨l', hmem, hcell⟩
    obtain ⟨i', j', hi', hj', hl'⟩ := h.hasLink l' hmem
    rw [hg.cell_eq hi' hj' hl'] at hcell
    rw [g.entry_congr hcell, hl, Option.some.injEq] at hl'
    rwa [hl']

/-- Each link of the path gets `func` of its bandwidth, once, and nothing else changes. -/
theorem update_touches_path (g : Network T) (hg : g.Wf) {a b : T} {p : Nat × Nat}
    (hm : g.mapTwo a b = some p) (func : Nat → Run Nat) :
    Returns (g.getPathBetween a b) fun o => ∃ path, o = some path ∧
      ((∀ l ∈ path.links, Returns (func l.linkBandwidth) fun _ => True) →
        Returns (g.updateEdgesAlongPathBy a b func) fun g' =>
          (g'.mapper = g.mapper ∧ g'.pathStrategy = g.pathStrategy ∧ g'.links.n = g.links.n) ∧
          ∀ i j, i < g.links.n → j < g.links.n →
            (g.links.entry i j = none → g'.links.entry i j = none) ∧
            ∀ l, g.links.entry i j = some l →
              (l ∈ path.links → Returns (func l.linkBandwidth) fun y =>
                g'.links.entry i j = some { l with linkBandwidth := y }) ∧
              (l ∉ path.links → g'.links.entry i j = some l)) := by
  obtain ⟨o, ho, path, rfl, hpath⟩ := getPathBetween_spec hg.shaped hm
  refine ⟨_, ho, path, rfl, fun hfunc => ?_⟩
  have hmem : ∀ i j l, i < g.links.n → j < g.links.n → g.links.entry i j = some l →
      (l ∈ path.links ↔ s(i, j) ∈ g.cells a b) := fun i j l hi hj hl =>
    hpath.mem_links_iff hg.shaped hi hj hl
  refine (updateEdgesAlongPathBy_walked hg.shaped ?_).mono fun g' h => ⟨⟨h.1.mapper,
    h.1.pathStrategy, h.1.size⟩,
      fun i j hi hj => ⟨fun hnone => ?_, fun l hl => ⟨fun hin => ?_, fun hout => ?_⟩⟩⟩
  · intro c hc
    obtain ⟨cp, hcp, rfl⟩ := List.mem_map.mp hc
    obtain ⟨h1, h2, hadj⟩ := hg.route_lt cp hcp
    obtain ⟨⟨l, hl⟩, -⟩ := adj_iff.mp hadj
    rw [g.links.entry_comm] at hl
    rw [bandOf_mk, band, hl]
    simp only [hg.bandwidth h1 h2 hl]
    exact hfunc l ((hmem _ _ l h1 h2 hl).mpr hc)
  · obtain ⟨b, hb⟩ := h.1.entry i j hi hj
    rw [hb, hnone, Option.map_none]
  · rw [← hg.bandwidth hi hj hl]
    exact (h.2 i j hi hj).2 l ((hmem i j l hi hj hl).mp hin) hl
  · rw [(h.2 i j hi hj).1 fun hcell => hout ((hmem i j l hi hj hl).mpr hcell), hl]

/-- The wide path around the narrow link. -/
theorem update_touches_path_triangle : Returns (triangle .widestPath) fun g =>
    Returns (g.getPathBetween 0 2) fun o => ∃ path, o = some path ∧ path.links.length = 2 ∧
      Returns (g.updateEdgesAlongPathBy 0 2 fun b => pure (b - 5)) fun g' =>
        ∀ i j l, i < g.links.n → j < g.links.n → g.links.entry i j = some l →
          (l ∈ path.links → g'.links.entry i j = some { l with linkBandwidth := l.linkBandwidth - 5 }) ∧
          (l ∉ path.links → g'.links.entry i j = some l) := by
  obtain ⟨g, hg, hm, o, ho, hlength⟩ : Returns (triangle .widestPath) fun g => g.mapTwo 0 2 = some (0, 2) ∧
      Returns (g.getPathBetween 0 2) fun o => o.map (·.links.length) = some 2 := by
    decide +kernel
  have hwf := (withLinks_built hg (by decide)).wf
  obtain ⟨o', ho', path, rfl, h⟩ := update_touches_path g hwf hm fun b => pure (b - 5)
  obtain rfl := Except.ok.inj (ho.symm.trans ho')
  refine ⟨g, hg, _, ho, path, rfl, by simpa using hlength, (h fun l _ => by simp).mono ?_⟩
  intro g' hg' i j l hi hj hl
  have hlink := (hg'.2 i j hi hj).2 l hl
  exact ⟨fun hin => (returns_pure (l.linkBandwidth - 5) _).mp (hlink.1 hin), hlink.2⟩

/-! ## The questions -/

/-- `get_path_between` gives a path exactly when its siblings give a bandwidth, which then is the
least one on the links of the path. -/
def QueriesAgree (g : Network T) (a b : T) : Prop :=
  Returns (g.getPathBetween a b) fun path => Returns (g.bandwidthBetween a b) fun bandwidth =>
    Returns (g.propertiesBetween a b) fun props =>
      (path.isSome ↔ bandwidth.isSome) ∧ (path.isSome ↔ props.isSome) ∧
      ∀ p ∈ path, ∃ w, IsLeast {x | ∃ l ∈ p.linksSet.elems, l.bandwidth = x} w ∧
        bandwidth = some w ∧ props.map Properties.bandwidth = some w

theorem PathOf.bandwidths (hg : g.Shaped) {a b : T} {p : Path T} (h : g.PathOf a b p) :
    {x | ∃ l ∈ p.linksSet.elems, l.bandwidth = x} = {x | ∃ c ∈ g.cells a b, g.bandOf c = x} := by
  have hband : ∀ l ∈ p.linksSet.elems, g.bandOf l.cell = l.bandwidth := by
    intro l hl
    obtain ⟨i, j, hi, hj, hentry⟩ := h.hasLink l hl
    rw [hg.cell_eq hi hj hentry, bandOf_mk, band, hentry]
  have hcells : ∀ c, c ∈ g.cells a b ↔ ∃ l ∈ p.linksSet.elems, l.cell = c := by
    intro c
    rw [← List.mem_reverse, ← h.cells, List.mem_map]
  ext x
  constructor
  · rintro ⟨l, hl, rfl⟩
    exact ⟨l.cell, (hcells _).mpr ⟨l, hl, rfl⟩, hband l hl⟩
  · rintro ⟨c, hc, rfl⟩
    obtain ⟨l, hl, rfl⟩ := (hcells c).mp hc
    exact ⟨l, hl, (hband l hl).symm⟩

theorem isLeast_bottleneck (hg : g.Shaped) {a b : T} {i j : Fin g.links.n}
    (hm : g.mapTwo a b = some (i.val, j.val)) (hij : i ≠ j) (hroute : g.route a b ≠ []) :
    IsLeast {x | ∃ c ∈ g.cells a b, g.bandOf c = x} (g.bottleneck a b) := by
  rw [route_eq hm] at hroute
  rcases routeOf_routeFrom i j with ⟨-, hnil⟩ | ⟨p, -, hsteps⟩
  · exact absurd hnil hroute
  · have hleast := leastOn_width hg hij.symm p
    rw [bottleneck, cells, route_eq hm, hsteps, foldl_stepsOf, cellsOf_stepsOf]
    have hset : {x | ∃ c ∈ p.edges.map (Sym2.map Fin.val), g.bandOf c = x} =
        {x | ∃ e ∈ p.edges, g.weight e = x} := by
      simp only [List.mem_map, exists_exists_and_eq_and]
      rfl
    rw [hset]
    exact hleast

/-- The queries agree between two vertices exactly when the second can be reached. -/
theorem queries_agree_iff (g : Network T) (hg : g.Shaped) {a b : T} {i j : Fin g.links.n}
    (hm : g.mapTwo a b = some (i.val, j.val)) (hab : Vertex.id a ≠ Vertex.id b) :
    g.QueriesAgree a b ↔ g.graph.Reachable i j := by
  have hij : i ≠ j := fun h => mapTwo_ne hg hm hab (congrArg Fin.val h)
  have hreach : g.route a b = [] ↔ ¬ g.graph.Reachable i j := by
    rw [route_eq hm, (routeOf_routeFrom i j).eq_nil_iff hij, SimpleGraph.reachable_comm]
  obtain ⟨o, ho, p, rfl, hp⟩ := getPathBetween_spec hg hm
  have hband := bandwidthBetween_eq hg hm hij
  obtain ⟨props, hprops, hspeed⟩ := propertiesBetween_spec hg a b
  have hsome : props.isSome = (props.map Properties.bandwidth).isSome := by rw [Option.isSome_map]
  unfold QueriesAgree
  simp only [ho, hband, hprops, returns_ok, hsome, hspeed, Option.mem_some_iff, forall_eq',
    Option.isSome_some]
  by_cases hroute : g.route a b = []
  · simp [hroute, hreach.mp hroute]
  · rw [if_neg hroute, Option.isSome_some]
    refine iff_of_true ⟨by simp, by simp, g.bottleneck a b, ?_, rfl, rfl⟩ (not_not.mp (mt hreach.mpr hroute))
    rw [hp.bandwidths hg]
    exact isLeast_bottleneck hg hm hij hroute

theorem queries_agree_triangle : Returns (triangle .widestPath) fun g =>
    ∃ i j : Fin g.links.n, g.mapTwo 0 2 = some (i.val, j.val) ∧
      (g.QueriesAgree 0 2 ↔ g.graph.Reachable i j) := by
  obtain ⟨g, hg, hn, hm⟩ : Returns (triangle .widestPath) fun g =>
      g.links.n = 3 ∧ g.mapTwo 0 2 = some (0, 2) := by decide +kernel
  have hij : g.mapTwo 0 2 =
    some ((⟨0, by omega⟩ : Fin g.links.n).val, (⟨2, by omega⟩ : Fin g.links.n).val) := hm
  exact ⟨g, hg, _, _, hij, queries_agree_iff g (triangle_shaped hg) hij (by decide)⟩

/-- Without a link `get_path_between` has an empty path, and the others have nothing. -/
theorem queries_disagree : Returns (withLinks .shortestPath [0, 1] []) fun g =>
    g.Built ∧ ¬ g.QueriesAgree 0 1 := by
  obtain ⟨g, hg, hpath, hband⟩ : Returns (withLinks .shortestPath [0, 1] []) fun g =>
      (Returns (g.getPathBetween 0 1) fun p => p.isSome) ∧ g.bandwidthBetween 0 1 = .ok none := by
    decide +kernel
  refine ⟨g, hg, withLinks_built hg (by simp), ?_⟩
  rintro ⟨p, hp, o, ho, props, -, hagree, -⟩
  rw [hband, Except.ok.injEq] at ho
  rw [hpath.of_eq hp, ← ho] at hagree
  simp at hagree

end Network

end Kollaps
