import Kollaps.Netgraph.Ties

/-!
# The demand of two applications

`bandwidth_matrix` asks for the bandwidth of each two vertices in one direction, which the
iteration order of the mapper picks. The answer is the demand of both directions exactly
where the paths of the two directions have the same bandwidth.
-/

namespace Kollaps

open Run

namespace Network

variable {T : Type} [Vertex T] {g : Network T}

/-! ## The matrix -/

theorem mem_vertices {it : Iter} {a : T} : a ∈ g.vertices it ↔ a ∈ g.mapper.elems.map Prod.fst :=
  ((it.perm _).map _).mem_iff

theorem nodup_vertices (it : Iter) (g : Network T) : ((g.vertices it).map Vertex.id).Nodup := by
  have hkeys := g.mapper.nodup
  rw [← List.Perm.nodup_iff ((it.perm g.mapper.elems).map fun p => Vertex.id p.1)] at hkeys
  rwa [vertices, List.map_map]

theorem map_of_mem_vertices {it : Iter} {a : T} (h : a ∈ g.vertices it) : ∃ i, g.map a = some i := by
  obtain ⟨p, hp, rfl⟩ := List.mem_map.mp (mem_vertices.mp h)
  exact ⟨p.2, map_eq_some.mpr ⟨p, hp, rfl, rfl⟩⟩

theorem position_inj {it : Iter} {predicate : T → Bool} {row col : Nat} {a b : T}
    (ha : ((g.vertices it).filter predicate)[row]? = some a)
    (hb : ((g.vertices it).filter predicate)[col]? = some b) (h : Vertex.id a = Vertex.id b) :
    row = col := by
  have hnd : (((g.vertices it).filter predicate).map Vertex.id).Nodup :=
    (nodup_vertices it g).sublist (List.filter_sublist.map _)
  refine (List.getElem?_inj ?_ hnd).mp ?_
  · rw [List.length_map]
    exact (List.getElem?_eq_some_iff.mp ha).1
  · rw [List.getElem?_map, List.getElem?_map, ha, hb, Option.map_some, Option.map_some, h]

structure Picks (g : Network T) (predicate : T → Bool) (a b : T) (i j : Fin g.links.n) : Prop where
  left : a ∈ g.mapper.elems.map Prod.fst ∧ predicate a = true
  right : b ∈ g.mapper.elems.map Prod.fst ∧ predicate b = true
  differ : Vertex.id a ≠ Vertex.id b
  mapTwo : g.mapTwo a b = some (i.val, j.val)

theorem Picks.ne (hg : g.Shaped) {predicate : T → Bool} {a b : T} {i j : Fin g.links.n}
    (h : g.Picks predicate a b i j) : i ≠ j :=
  fun hij => mapTwo_ne hg h.mapTwo h.differ (congrArg Fin.val hij)

theorem Picks.symm {predicate : T → Bool} {a b : T} {i j : Fin g.links.n}
    (h : g.Picks predicate a b i j) : g.Picks predicate b a j i :=
  ⟨h.right, h.left, h.differ.symm, mapTwo_eq_some.mpr (mapTwo_eq_some.mp h.mapTwo).symm⟩

theorem Picks.route_eq_nil (hg : g.Shaped) {predicate : T → Bool} {a b : T} {i j : Fin g.links.n}
    (h : g.Picks predicate a b i j) : g.route a b = [] ↔ ¬ g.graph.Reachable i j := by
  rw [route_eq h.mapTwo, (routeOf_routeFrom i j).eq_nil_iff (h.ne hg), SimpleGraph.reachable_comm]

theorem Picks.reachable (hg : g.Shaped) {predicate : T → Bool} {a b : T} {i j : Fin g.links.n}
    (h : g.Picks predicate a b i j) {w : Nat} (hw : g.bandwidthBetween a b = .ok (some w)) :
    g.graph.Reachable i j := by
  by_contra hnot
  rw [bandwidthBetween_eq hg h.mapTwo (h.ne hg), if_pos ((h.route_eq_nil hg).mpr hnot)] at hw
  cases hw

theorem picks_of_positions (hg : g.Shaped) {it : Iter} {predicate : T → Bool} {row col : Nat} {a b : T}
    (ha : ((g.vertices it).filter predicate)[row]? = some a)
    (hb : ((g.vertices it).filter predicate)[col]? = some b) (hne : row ≠ col) :
    ∃ i j, g.Picks predicate a b i j := by
  obtain ⟨ha', hpa⟩ := List.mem_filter.mp (List.mem_of_getElem? ha)
  obtain ⟨hb', hpb⟩ := List.mem_filter.mp (List.mem_of_getElem? hb)
  obtain ⟨i, hi⟩ := map_of_mem_vertices ha'
  obtain ⟨j, hj⟩ := map_of_mem_vertices hb'
  exact ⟨⟨i, hg.map_lt a i hi⟩, ⟨j, hg.map_lt b j hj⟩, ⟨mem_vertices.mp ha', hpa⟩,
    ⟨mem_vertices.mp hb', hpb⟩, fun h => hne (position_inj ha hb h), mapTwo_eq_some.mpr ⟨hi, hj⟩⟩

/-- A matrix that was computed has the demand of one direction. -/
theorem bandwidthMatrix_ok {it : Iter} {predicate : T → Bool} {matrix : SymMatrix Nat} {apps : List T}
    (h : g.bandwidthMatrix it predicate = .ok (matrix, apps)) :
    apps = (g.vertices it).filter predicate ∧ matrix.n = apps.length ∧
      ∀ row col a b, row < col → apps[row]? = some a → apps[col]? = some b →
        g.bandwidthBetween a b = .ok (some (matrix.entry row col)) := by
  obtain ⟨m, hm, h⟩ := of_bind_eq_ok h
  cases h
  obtain ⟨hn, hentry⟩ := SymMatrix.newFn_ok hm
  refine ⟨rfl, hn, fun row col a b hlt ha hb => ?_⟩
  have h := hentry row col (Nat.le_of_lt hlt) (List.getElem?_eq_some_iff.mp hb).1
  rw [if_neg (Nat.ne_of_lt hlt), get_eq_ok.mpr ha, get_eq_ok.mpr hb, bind_ok, bind_ok] at h
  obtain ⟨o, ho, h⟩ := of_bind_eq_ok h
  rw [ho, unwrap_eq_ok.mp h]

theorem reachable_of_bandwidthMatrix (hg : g.Shaped) {it : Iter} {predicate : T → Bool}
    {matrix : SymMatrix Nat}
    {apps : List T} (h : g.bandwidthMatrix it predicate = .ok (matrix, apps)) {a b : T} {i j : Fin g.links.n}
    (hp : g.Picks predicate a b i j) : g.graph.Reachable i j := by
  obtain ⟨rfl, -, hentry⟩ := bandwidthMatrix_ok h
  obtain ⟨row, hrow⟩ := List.mem_iff_getElem?.mp (List.mem_filter.mpr ⟨mem_vertices.mpr hp.left.1, hp.left.2⟩)
  obtain ⟨col, hcol⟩ :=
    List.mem_iff_getElem?.mp (List.mem_filter.mpr ⟨mem_vertices.mpr hp.right.1, hp.right.2⟩)
  rcases lt_trichotomy row col with hlt | rfl | hlt
  · exact hp.reachable hg (hentry row col a b hlt hrow hcol)
  · rw [hrow, Option.some.injEq] at hcol
    exact absurd (congrArg _ hcol) hp.differ
  · exact (hp.symm.reachable hg (hentry col row b a hlt hcol hrow)).symm

theorem bandwidthMatrix_noErr (hg : g.Shaped) (it : Iter) (predicate : T → Bool) :
    NoErr (g.bandwidthMatrix it predicate) := by
  refine (SymMatrix.newFn_noErr fun row col hle hcol => ?_).bind fun _ => NoErr.ok _
  by_cases hrc : row = col
  · rw [if_pos hrc]
    exact NoErr.ok _
  · rw [if_neg hrc]
    have ha := List.getElem?_eq_getElem (l := (g.vertices it).filter predicate) (lt_of_le_of_lt hle hcol)
    have hb := List.getElem?_eq_getElem (l := (g.vertices it).filter predicate) hcol
    obtain ⟨i, j, hp⟩ := picks_of_positions hg ha hb hrc
    rw [get_eq_ok.mpr ha, get_eq_ok.mpr hb, bind_ok, bind_ok,
      bandwidthBetween_eq hg hp.mapTwo (hp.ne hg), bind_ok]
    exact NoErr.unwrap _

theorem bandwidthBetween_congr (g : Network T) {a b a' b' : T} (ha : Vertex.id a = Vertex.id a')
    (hb : Vertex.id b = Vertex.id b') : g.bandwidthBetween a b = g.bandwidthBetween a' b' := by
  rw [bandwidthBetween, bandwidthBetween, mapTwo, mapTwo, g.map_congr ha, g.map_congr hb]

theorem bandwidthMatrix_spec (hg : g.Shaped) (it : Iter) {predicate : T → Bool}
    (hconn : ∀ a b i j, g.Picks predicate a b i j → g.graph.Reachable i j) :
    Returns (g.bandwidthMatrix it predicate) fun r => r.2 = (g.vertices it).filter predicate ∧
      (∀ row, row < r.2.length → r.1.entry row row = u32Max) ∧
      ∀ row col a b, row < col → r.2[row]? = some a → r.2[col]? = some b →
        g.bandwidthBetween a b = .ok (some (r.1.entry row col)) := by
  unfold bandwidthMatrix
  have hspec := SymMatrix.newFn_spec (n := ((g.vertices it).filter predicate).length)
    (f := fun row col => if row = col then pure u32Max
      else do
        let a ← get ((g.vertices it).filter predicate) row
        let b ← get ((g.vertices it).filter predicate) col
        unwrap (← g.bandwidthBetween a b))
    (P := fun row col x => (row = col → x = u32Max) ∧ ∀ a b, row < col →
      ((g.vertices it).filter predicate)[row]? = some a →
      ((g.vertices it).filter predicate)[col]? = some b → g.bandwidthBetween a b = .ok (some x)) (by
    intro row col hle hcol
    by_cases hrc : row = col
    · rw [if_pos hrc, returns_pure]
      exact ⟨fun _ => rfl, fun a b hlt => absurd hrc (Nat.ne_of_lt hlt)⟩
    · rw [if_neg hrc]
      have ha := List.getElem?_eq_getElem (l := (g.vertices it).filter predicate) (lt_of_le_of_lt hle hcol)
      have hb := List.getElem?_eq_getElem (l := (g.vertices it).filter predicate) hcol
      obtain ⟨i, j, hp⟩ := picks_of_positions hg ha hb hrc
      have hroute : ¬ g.route ((g.vertices it).filter predicate)[row]
          ((g.vertices it).filter predicate)[col] = [] := by
        rw [hp.route_eq_nil hg, not_not]
        exact hconn _ _ i j hp
      have hband := bandwidthBetween_eq hg hp.mapTwo (hp.ne hg)
      rw [if_neg hroute] at hband
      rw [get_eq_ok.mpr ha, get_eq_ok.mpr hb, bind_ok, bind_ok, hband, bind_ok, unwrap_some, returns_ok]
      refine ⟨fun h => absurd h hrc, fun a b _ ha' hb' => ?_⟩
      rw [ha, Option.some.injEq] at ha'
      rw [hb, Option.some.injEq] at hb'
      rw [← ha', ← hb', hband])
  refine hspec.bind fun m hm => ?_
  rw [returns_pure]
  refine ⟨rfl, fun row hrow => (hm.2 row row (le_refl _) hrow).1 rfl, fun row col a b hlt ha hb => ?_⟩
  exact (hm.2 row col hlt.le (List.getElem?_eq_some_iff.mp hb).1).2 a b hlt ha hb

/-! ## Both directions -/

def IsDemand (g : Network T) (r : SymMatrix Nat × List T) : Prop :=
  ∀ row col a b, r.2[row]? = some a → r.2[col]? = some b → row ≠ col →
    g.bandwidthBetween a b = .ok (some (r.1.entry row col)) ∧
    g.bandwidthBetween b a = .ok (some (r.1.entry row col))

def SameDemand (r r' : SymMatrix Nat × List T) : Prop :=
  ∀ row col row' col' a b, r.2[row]? = some a → r.2[col]? = some b → r'.2[row']? = some a →
    r'.2[col']? = some b → r.1.entry row col = r'.1.entry row' col'

/-- In every iteration order the matrix has the demand of both directions, and the same demand. -/
def MatrixSymmetric (g : Network T) (predicate : T → Bool) : Prop :=
  (∀ it, Returns (g.bandwidthMatrix it predicate) g.IsDemand) ∧
    ∀ it it', Returns (g.bandwidthMatrix it predicate) fun r =>
      Returns (g.bandwidthMatrix it' predicate) fun r' => SameDemand r r'

theorem isDemand_of_symm (hg : g.Shaped) (it : Iter) {predicate : T → Bool}
    (hconn : ∀ a b i j, g.Picks predicate a b i j → g.graph.Reachable i j)
    (hsymm : ∀ a b i j, g.Picks predicate a b i j → g.bandwidthBetween a b = g.bandwidthBetween b a) :
    Returns (g.bandwidthMatrix it predicate) fun r => r.2 = (g.vertices it).filter predicate ∧
      (∀ row, row < r.2.length → r.1.entry row row = u32Max) ∧ g.IsDemand r := by
  refine (bandwidthMatrix_spec hg it hconn).mono fun r h => ⟨h.1, h.2.1, fun row col a b ha hb hne => ?_⟩
  obtain ⟨hnodes, -, hentry⟩ := h
  obtain ⟨i, j, hp⟩ := picks_of_positions hg (hnodes ▸ ha) (hnodes ▸ hb) hne
  have hab := hsymm a b i j hp
  rcases Nat.lt_or_gt_of_ne hne with hlt | hlt
  · rw [← hab, and_self]
    exact hentry row col a b hlt ha hb
  · rw [hab, and_self, r.1.entry_comm]
    exact hentry col row b a hlt hb ha

theorem matrixSymmetric_of_symm (hg : g.Shaped) {predicate : T → Bool}
    (hconn : ∀ a b i j, g.Picks predicate a b i j → g.graph.Reachable i j)
    (hsymm : ∀ a b i j, g.Picks predicate a b i j → g.bandwidthBetween a b = g.bandwidthBetween b a) :
    g.MatrixSymmetric predicate := by
  refine ⟨fun it => (isDemand_of_symm hg it hconn hsymm).mono fun r h => h.2.2, fun it it' => ?_⟩
  refine (isDemand_of_symm hg it hconn hsymm).mono fun r h => ?_
  refine (isDemand_of_symm hg it' hconn hsymm).mono fun r' h' => ?_
  intro row col row' col' a b ha hb ha' hb'
  have hiff : row = col ↔ row' = col' := by
    constructor
    · rintro rfl
      rw [ha, Option.some.injEq] at hb
      exact position_inj (h'.1 ▸ ha') (h'.1 ▸ hb') (congrArg _ hb)
    · rintro rfl
      rw [ha', Option.some.injEq] at hb'
      exact position_inj (h.1 ▸ ha) (h.1 ▸ hb) (congrArg _ hb')
  by_cases hrc : row = col
  · obtain rfl := hrc
    obtain rfl := hiff.mp rfl
    rw [h.2.1 row (List.getElem?_eq_some_iff.mp ha).1, h'.2.1 row' (List.getElem?_eq_some_iff.mp ha').1]
  · have h1 := (h.2.2 row col a b ha hb hrc).1
    have h2 := (h'.2.2 row' col' a b ha' hb' (mt hiff.mpr hrc)).1
    rw [h1, Except.ok.injEq, Option.some.injEq] at h2
    exact h2

/-- The demand of two vertices is symmetric exactly when their paths of least indices, seen from
either end, are as wide, and the matrix is symmetric exactly when this holds of all that it has. -/
theorem demand_symmetric_iff (g : Network T) (hg : g.Shaped) (hs : g.pathStrategy = .shortestPath) :
    (∀ (a b : T) (i j : Fin g.links.n), g.mapTwo a b = some (i.val, j.val) →
      Vertex.id a ≠ Vertex.id b →
      (g.bandwidthBetween a b = g.bandwidthBetween b a ↔ g.Balanced i j)) ∧
    ∀ predicate, (∀ a b i j, g.Picks predicate a b i j → g.graph.Reachable i j) →
      (g.MatrixSymmetric predicate ↔ ∀ a b i j, g.Picks predicate a b i j → g.Balanced i j) := by
  refine ⟨fun a b i j hm hab => ?_, fun predicate hconn => ⟨fun h a b i j hp => ?_, fun h => ?_⟩⟩
  · exact bandwidthBetween_symm_iff hg hs hm fun hij => mapTwo_ne hg hm hab (congrArg Fin.val hij)
  · rw [← bandwidthBetween_symm_iff hg hs hp.mapTwo (hp.ne hg)]
    obtain ⟨r, hr, hdemand⟩ := h.1 .inOrder
    obtain ⟨hnodes, -⟩ := (bandwidthMatrix_spec hg .inOrder hconn).of_eq hr
    have hmem : ∀ x, x ∈ g.mapper.elems.map Prod.fst ∧ predicate x = true →
        ∃ row : Nat, r.2[row]? = some x := by
      rintro x ⟨hx, hpx⟩
      rw [hnodes]
      exact List.mem_iff_getElem?.mp (List.mem_filter.mpr ⟨mem_vertices.mpr hx, hpx⟩)
    obtain ⟨row, hrow⟩ := hmem a hp.left
    obtain ⟨col, hcol⟩ := hmem b hp.right
    have hne : row ≠ col := by
      rintro rfl
      rw [hrow, Option.some.injEq] at hcol
      exact hp.differ (congrArg _ hcol)
    obtain ⟨h1, h2⟩ := hdemand row col a b hrow hcol hne
    rw [h1, h2]
  · refine matrixSymmetric_of_symm hg hconn fun a b i j hp => ?_
    exact (bandwidthBetween_symm_iff hg hs hp.mapTwo (hp.ne hg)).mpr (h a b i j hp)

theorem demand_symmetric_triangle : Returns (triangle .shortestPath) fun g =>
    ∀ (a b : Nat) (i j : Fin g.links.n), g.mapTwo a b = some (i.val, j.val) →
      Vertex.id a ≠ Vertex.id b →
      (g.bandwidthBetween a b = g.bandwidthBetween b a ↔ g.Balanced i j) := by
  obtain ⟨g, hg, hs⟩ : Returns (triangle .shortestPath) fun g => g.pathStrategy = .shortestPath := by
    decide +kernel
  exact ⟨g, hg, (demand_symmetric_iff g (triangle_shaped hg) hs).1⟩

/-- Two routes of three links. From `0` the search comes to `5` by way of `3`, from `5` to `0` by
way of `1`, since each takes the least index at the far end. -/
def detour : Run (Network Nat) :=
  withLinks .shortestPath [0, 1, 2, 3, 4, 5]
    [(0, 1, 10), (1, 4, 10), (4, 5, 10), (0, 2, 20), (2, 3, 20), (3, 5, 20)]

theorem demand_asymmetric : Returns detour fun g =>
    (g.Built ∧ g.pathStrategy = .shortestPath) ∧
    g.bandwidthBetween 0 5 ≠ g.bandwidthBetween 5 0 ∧
    Returns (g.bandwidthMatrix .inOrder fun v => v = 0 ∨ v = 5) fun r =>
      Returns (g.bandwidthMatrix .backward fun v => v = 0 ∨ v = 5) fun r' => ¬ SameDemand r r' := by
  obtain ⟨g, hg, hs, hne, r, hr, r', hr', hrow, hcol, hrow', hcol', hentry⟩ : Returns detour fun g =>
      g.pathStrategy = .shortestPath ∧ g.bandwidthBetween 0 5 ≠ g.bandwidthBetween 5 0 ∧
      Returns (g.bandwidthMatrix .inOrder fun v => v = 0 ∨ v = 5) fun r =>
        Returns (g.bandwidthMatrix .backward fun v => v = 0 ∨ v = 5) fun r' =>
          r.2[0]? = some 5 ∧ r.2[1]? = some 0 ∧ r'.2[1]? = some 5 ∧ r'.2[0]? = some 0 ∧
            r.1.entry 0 1 ≠ r'.1.entry 1 0 := by decide +kernel
  exact ⟨g, hg, ⟨withLinks_built hg (by decide), hs⟩, hne, r, hr, r', hr',
    fun h => hentry (h 0 1 1 0 5 0 hrow hcol hrow' hcol')⟩

end Network

end Kollaps
