import Kollaps.Netgraph.Basic

/-!
# Well formed networks

What every network has that the library builds, and what stays when only bandwidths change.
-/

namespace Kollaps

open Run

namespace Network

variable {T : Type} [Vertex T]

/-- Vertices have distinct indices, and each link stands in the cell of its end points. -/
structure Wf (g : Network T) : Prop where
  map_lt : ∀ v i, g.map v = some i → i < g.links.n
  map_inj : ∀ v w i, g.map v = some i → g.map w = some i → Vertex.id v = Vertex.id w
  ends : ∀ i j l, i < g.links.n → j < g.links.n → g.links.entry i j = some l →
    s(l.internalSource, l.internalDestination) = s(i, j) ∧
      g.map l.source = some l.internalSource ∧ g.map l.destination = some l.internalDestination
  full : ∀ i j l, i < g.links.n → j < g.links.n → g.links.entry i j = some l →
    l.duplex = .fullDuplex ∧ l.linkBandwidth ≤ u32Max

/-- `Wf` but for the duplex of the links: what the searches and the walks need. -/
structure Shaped (g : Network T) : Prop where
  map_lt : ∀ v i, g.map v = some i → i < g.links.n
  map_inj : ∀ v w i, g.map v = some i → g.map w = some i → Vertex.id v = Vertex.id w
  ends : ∀ i j l, i < g.links.n → j < g.links.n → g.links.entry i j = some l →
    s(l.internalSource, l.internalDestination) = s(i, j) ∧
      g.map l.source = some l.internalSource ∧ g.map l.destination = some l.internalDestination
  speed : ∀ i j l, i < g.links.n → j < g.links.n → g.links.entry i j = some l →
    l.linkBandwidth ≤ u32Max

theorem Wf.shaped {g : Network T} (h : g.Wf) : g.Shaped :=
  ⟨h.map_lt, h.map_inj, h.ends, fun i j l hi hj hl => (h.full i j l hi hj hl).2⟩

/-- A network that the operations of the library build. -/
inductive Built : Network T → Prop where
  | new {vertices : List T} {strategy : PathStrategy} {g : Network T} :
      new vertices strategy = .ok g → Built g
  | addEdge {g g' : Network T} {a b : T} {bandwidth : Nat} :
      Built g → bandwidth ≤ u32Max → g.addEdge a b bandwidth = .ok g' → Built g'
  | addEdgeWithProps {g g' : Network T} {a b : T} {bandwidth : Nat} {lj : F32 × F32} {drop : F32} :
      Built g → bandwidth ≤ u32Max → g.addEdgeWithProps a b bandwidth lj drop = .ok g' → Built g'
  | updateBandwidth {g g' : Network T} {a b : T} {bandwidth : Nat} :
      Built g → bandwidth ≤ u32Max → g.updateBandwidth a b bandwidth = .ok g' → Built g'
  | updateEdgesAlongPathBy {g g' : Network T} {a b : T} {func : Nat → Run Nat} :
      Built g → (∀ x y, x ≤ u32Max → func x = .ok y → y ≤ u32Max) →
      g.updateEdgesAlongPathBy a b func = .ok g' → Built g'
  | editVertex {g : Network T} (v : T) : Built g → Built (g.editVertex v)

def withLinks (pathStrategy : PathStrategy) (vertices : List T) (links : List (T × T × Nat)) :
    Run (Network T) := do
  let g ← new vertices pathStrategy
  links.foldlM (fun g l => g.addEdge l.1 l.2.1 l.2.2) g

theorem withLinks_built {pathStrategy : PathStrategy} {vertices : List T}
    {links : List (T × T × Nat)} {g : Network T} (h : withLinks pathStrategy vertices links = .ok g)
    (hlinks : ∀ l ∈ links, l.2.2 ≤ u32Max) : Built g := by
  unfold withLinks at h
  obtain ⟨g₀, h₀, h⟩ := of_bind_eq_ok h
  exact foldlM_ok_inv Built (.new h₀) (fun l hl g g' hg he => hg.addEdge (hlinks l hl) he) h

theorem map_congr (g : Network T) {v w : T} (h : Vertex.id v = Vertex.id w) : g.map v = g.map w := by
  rw [map, map, h]

theorem mapTwo_eq_some {g : Network T} {v w : T} {i j : Nat} :
    g.mapTwo v w = some (i, j) ↔ g.map v = some i ∧ g.map w = some j := by
  unfold mapTwo
  cases g.map v <;> cases g.map w <;> simp

theorem Shaped.key_inj {g : Network T} (h : g.Shaped) {i j i' j' : Nat} {l l' : Link T}
    (hi : i < g.links.n) (hj : j < g.links.n) (hi' : i' < g.links.n) (hj' : j' < g.links.n)
    (hl : g.links.entry i j = some l) (hl' : g.links.entry i' j' = some l')
    (hk : l.key = l'.key) : s(i, j) = s(i', j') := by
  obtain ⟨he, hs, hd⟩ := h.ends i j l hi hj hl
  obtain ⟨he', hs', hd'⟩ := h.ends i' j' l' hi' hj' hl'
  rw [← he, ← he', Sym2.eq_iff]
  rw [Link.key, Link.key, Sym2.eq_iff] at hk
  rcases hk with ⟨h1, h2⟩ | ⟨h1, h2⟩
  · rw [g.map_congr h1, hs'] at hs
    rw [g.map_congr h2, hd'] at hd
    simp only [Option.some.injEq] at hs hd
    exact Or.inl ⟨hs.symm, hd.symm⟩
  · rw [g.map_congr h1, hd'] at hs
    rw [g.map_congr h2, hs'] at hd
    simp only [Option.some.injEq] at hs hd
    exact Or.inr ⟨hs.symm, hd.symm⟩

theorem Shaped.bandwidth_le {g : Network T} (h : g.Shaped) {i j : Nat} {l : Link T}
    (hi : i < g.links.n) (hj : j < g.links.n) (hl : g.links.entry i j = some l) :
    l.bandwidth ≤ u32Max := by
  have hle := h.speed i j l hi hj hl
  unfold Link.bandwidth
  split <;> omega

theorem Wf.bandwidth {g : Network T} (h : g.Wf) {i j : Nat} {l : Link T} (hi : i < g.links.n)
    (hj : j < g.links.n) (hl : g.links.entry i j = some l) : l.bandwidth = l.linkBandwidth := by
  rw [Link.bandwidth, (h.full i j l hi hj hl).1]

/-! ## The operations keep the shape -/

theorem mapper_new (vs : List (T × Nat)) (m : Mapper T) (hdis : ∀ p ∈ vs, ∀ q ∈ m.elems, p.2 ≠ q.2)
    (hvs : (vs.map Prod.snd).Nodup) (hinj : ∀ p ∈ m.elems, ∀ q ∈ m.elems, p.2 = q.2 → p = q) :
    ∀ p ∈ (vs.foldl (fun acc p => acc.put p.1 p.2) m).elems,
      (p.2 ∈ vs.map Prod.snd ∨ ∃ q ∈ m.elems, p.2 = q.2) ∧
      ∀ q ∈ (vs.foldl (fun acc p => acc.put p.1 p.2) m).elems, p.2 = q.2 → p = q := by
  induction vs generalizing m with
  | nil => intro p hp; exact ⟨Or.inr ⟨p, hp, rfl⟩, fun q hq => hinj p hp q hq⟩
  | cons v vs ih =>
    have hput : ∀ p, p ∈ (m.put v.1 v.2).elems → p.2 = v.2 ∨ p ∈ m.elems := by
      intro p hp
      have h := KeySet.get?_key hp
      rw [KeySet.get?_put] at h
      split at h
      · simp only [Option.some.injEq] at h
        exact Or.inl (congrArg Prod.snd h).symm
      · exact Or.inr (KeySet.mem_of_get? h)
    have hput' : ∀ p, p ∈ (m.put v.1 v.2).elems → p.2 = v.2 →
        Vertex.id p.1 = Vertex.id v.1 := by
      intro p hp hv
      have h := KeySet.get?_key hp
      rw [KeySet.get?_put] at h
      split at h <;> rename_i hk
      · exact hk
      · exact absurd hv.symm (hdis v List.mem_cons_self p (KeySet.mem_of_get? h))
    have hnd : v.2 ∉ vs.map Prod.snd ∧ (vs.map Prod.snd).Nodup := by simpa using hvs
    have := ih (m.put v.1 v.2)
      (by
        intro p hp q hq he
        rcases hput q hq with h | h
        · exact hnd.1 (List.mem_map.mpr ⟨p, hp, he.trans h⟩)
        · exact hdis p (List.mem_cons_of_mem _ hp) q h he)
      hnd.2
      (by
        intro p hp q hq he
        rcases hput p hp with h | h
        · exact (m.put v.1 v.2).eq_of_key_eq hp hq
            ((hput' p hp h).trans (hput' q hq (he.symm.trans h)).symm)
        · rcases hput q hq with h' | h'
          · exact absurd (he.trans h').symm (hdis v List.mem_cons_self p h)
          · exact hinj p h q h' he)
    intro p hp
    obtain ⟨h1, h2⟩ := this p hp
    refine ⟨?_, h2⟩
    rcases h1 with h1 | ⟨q, hq, he⟩
    · exact Or.inl (List.mem_cons_of_mem _ h1)
    · rcases hput q hq with h | h
      · exact Or.inl (by simp [he, h])
      · exact Or.inr ⟨q, h, he⟩

theorem map_eq_some {g : Network T} {v : T} {i : Nat} :
    g.map v = some i ↔ ∃ p ∈ g.mapper.elems, Vertex.id p.1 = Vertex.id v ∧ p.2 = i := by
  rw [map, Option.map_eq_some_iff]
  constructor
  · rintro ⟨p, hp, rfl⟩
    have h := KeySet.get?_eq_some.mp hp
    exact ⟨p, h.1, h.2, rfl⟩
  · rintro ⟨p, hp, hk, rfl⟩
    exact ⟨p, KeySet.get?_eq_some.mpr ⟨hp, hk⟩, rfl⟩

theorem new_wf {vertices : List T} {strategy : PathStrategy} {g : Network T}
    (h : new vertices strategy = .ok g) : g.Wf := by
  unfold new at h
  obtain ⟨links, hlinks, h⟩ := of_bind_eq_ok h
  cases h
  have hspec := SymMatrix.newFn_spec (n := vertices.length)
    (f := fun _ _ => (pure none : Run (Option (Link T)))) (P := fun _ _ a => a = none)
    (fun _ _ _ _ => by rw [returns_pure])
  obtain ⟨hn, hnone⟩ := hspec.of_eq hlinks
  have hnone' : ∀ i j, i < links.n → j < links.n → links.entry i j = none := by
    intro i j hi hj
    rcases Nat.le_total i j with hij | hij
    · exact hnone i j hij (by omega)
    · rw [links.entry_comm]; exact hnone j i hij (by omega)
  have hmap := mapper_new vertices.zipIdx KeySet.empty (by simp) (by
    rw [List.zipIdx_map_snd]; exact List.nodup_range') (by simp)
  refine ⟨fun v i hv => ?_, fun v w i hv hw => ?_, fun i j l hi hj hl => ?_, fun i j l hi hj hl => ?_⟩
  · obtain ⟨p, hp, -, rfl⟩ := map_eq_some.mp hv
    rcases (hmap p hp).1 with h | ⟨q, hq, -⟩
    · rw [List.zipIdx_map_snd, List.mem_range'] at h
      show p.2 < links.n
      omega
    · simp at hq
  · obtain ⟨p, hp, hpv, hpi⟩ := map_eq_some.mp hv
    obtain ⟨q, hq, hqw, hqi⟩ := map_eq_some.mp hw
    rw [← hpv, ← hqw, (hmap p hp).2 q hq (hpi.trans hqi.symm)]
  · rw [hnone' i j hi hj] at hl; cases hl
  · rw [hnone' i j hi hj] at hl; cases hl

theorem Wf.set {g : Network T} (h : g.Wf) {i j : Nat} (hi : i < g.links.n) (hj : j < g.links.n)
    {l : Link T} {links : SymMatrix (Option (Link T))}
    (hset : g.links.setIndex i j (some l) = .ok links)
    (hends : s(l.internalSource, l.internalDestination) = s(i, j) ∧
      g.map l.source = some l.internalSource ∧ g.map l.destination = some l.internalDestination)
    (hfull : l.duplex = .fullDuplex ∧ l.linkBandwidth ≤ u32Max) : Wf { g with links } := by
  obtain ⟨hn, hentry⟩ := (g.links.setIndex_spec hi hj (some l)).of_eq hset
  have hcase : ∀ i' j' l', i' < links.n → j' < links.n → links.entry i' j' = some l' →
      (s(i, j) = s(i', j') ∧ l' = l) ∨ g.links.entry i' j' = some l' := by
    intro i' j' l' hi' hj' hl'
    rw [hentry i' j' (by omega) (by omega)] at hl'
    split at hl' <;> rename_i hc
    · cases hl'
      left
      refine ⟨?_, rfl⟩
      rw [Sym2.eq_iff]
      omega
    · exact Or.inr hl'
  refine ⟨fun v i hv => by rw [hn]; exact h.map_lt v i hv, h.map_inj, ?_, ?_⟩
  · intro i' j' l' hi' hj' hl'
    rcases hcase i' j' l' hi' hj' hl' with ⟨hs, rfl⟩ | hold
    · exact ⟨hends.1.trans hs, hends.2⟩
    · exact h.ends i' j' l' (by simp only at hi'; omega) (by simp only at hj'; omega) hold
  · intro i' j' l' hi' hj' hl'
    rcases hcase i' j' l' hi' hj' hl' with ⟨-, rfl⟩ | hold
    · exact hfull
    · exact h.full i' j' l' (by simp only at hi'; omega) (by simp only at hj'; omega) hold

theorem addEdgeWithProps_wf {g g' : Network T} (h : g.Wf) {a b : T} {bandwidth : Nat} {lj : F32 × F32}
    {drop : F32} (hb : bandwidth ≤ u32Max) (he : g.addEdgeWithProps a b bandwidth lj drop = .ok g') :
    g'.Wf := by
  unfold addEdgeWithProps at he
  cases hm : g.mapTwo a b with
  | none => rw [hm] at he; cases he; exact h
  | some p =>
    rw [hm] at he
    obtain ⟨links, hset, he⟩ := of_bind_eq_ok he
    cases he
    obtain ⟨ha, hb'⟩ := mapTwo_eq_some.mp hm
    exact h.set (h.map_lt a _ ha) (h.map_lt b _ hb') hset ⟨rfl, ha, hb'⟩ ⟨rfl, hb⟩

theorem addEdge_wf {g g' : Network T} (h : g.Wf) {a b : T} {bandwidth : Nat}
    (hb : bandwidth ≤ u32Max) (he : g.addEdge a b bandwidth = .ok g') : g'.Wf :=
  addEdgeWithProps_wf h hb he

theorem updateBandwidthInter_wf {g g' : Network T} (h : g.Wf) {i j bandwidth : Nat}
    (hi : i < g.links.n) (hj : j < g.links.n) (hb : bandwidth ≤ u32Max)
    (he : g.updateBandwidthInter i j bandwidth = .ok g') : g'.Wf ∧ g'.links.n = g.links.n := by
  unfold updateBandwidthInter at he
  rw [g.links.index_eq hi hj, bind_ok] at he
  cases hl : g.links.entry i j with
  | none => rw [hl] at he; cases he; exact ⟨h, rfl⟩
  | some l =>
    rw [hl] at he
    obtain ⟨links, hset, he⟩ := of_bind_eq_ok he
    cases he
    exact ⟨h.set hi hj hset (h.ends i j l hi hj hl) ⟨(h.full i j l hi hj hl).1, hb⟩,
      ((g.links.setIndex_spec hi hj _).of_eq hset).1⟩

theorem updateBandwidth_wf {g g' : Network T} (h : g.Wf) {a b : T} {bandwidth : Nat}
    (hb : bandwidth ≤ u32Max) (he : g.updateBandwidth a b bandwidth = .ok g') : g'.Wf := by
  unfold updateBandwidth at he
  cases hm : g.mapTwo a b with
  | none => rw [hm] at he; cases he; exact h
  | some p =>
    rw [hm] at he
    obtain ⟨ha, hb'⟩ := mapTwo_eq_some.mp hm
    exact (updateBandwidthInter_wf h (h.map_lt a _ ha) (h.map_lt b _ hb') hb he).1

@[simp] theorem editVertex_links (g : Network T) (v : T) : (g.editVertex v).links = g.links := by
  unfold editVertex
  cases g.mapper.get? (Vertex.id v) <;> rfl

@[simp] theorem editVertex_pathStrategy (g : Network T) (v : T) :
    (g.editVertex v).pathStrategy = g.pathStrategy := by
  unfold editVertex
  cases g.mapper.get? (Vertex.id v) <;> rfl

theorem editVertex_get? (g : Network T) (v : T) (k : Vertex.Id T) : (g.editVertex v).mapper.get? k =
    (g.mapper.get? k).map fun p => (if k = Vertex.id v then v else p.1, p.2) := by
  unfold editVertex
  by_cases hk : k = Vertex.id v
  · subst hk
    cases hv : g.mapper.get? (Vertex.id v) with
    | none => simp [hv]
    | some p => simp [KeySet.get?_put, KeySet.get?_remove]
  · have hsame : (g.mapper.get? k).map (fun p => (if k = Vertex.id v then v else p.1, p.2)) =
        g.mapper.get? k := by simp [hk]
    rw [hsame]
    cases g.mapper.get? (Vertex.id v) with
    | none => rfl
    | some p => rw [KeySet.get?_put, if_neg hk, KeySet.get?_remove, if_neg hk]

theorem editVertex_map (g : Network T) (v w : T) : (g.editVertex v).map w = g.map w := by
  rw [map, editVertex_get?, Option.map_map]
  rfl

theorem editVertex_wf {g : Network T} (h : g.Wf) (v : T) : (g.editVertex v).Wf := by
  refine ⟨?_, ?_, ?_, ?_⟩
  · intro w i hw; rw [editVertex_links]; rw [editVertex_map] at hw; exact h.map_lt w i hw
  · intro w u i hw hu; rw [editVertex_map] at hw hu; exact h.map_inj w u i hw hu
  · intro i j l; rw [editVertex_links, editVertex_map, editVertex_map]; exact h.ends i j l
  · intro i j l; rw [editVertex_links]; exact h.full i j l

theorem foldl_editVertex_get? {vs : List T} (hnd : (vs.map Vertex.id).Nodup) (g : Network T)
    (k : Vertex.Id T) : (vs.foldl editVertex g).mapper.get? k =
      (g.mapper.get? k).map fun p => ((vs.find? fun v => Vertex.id v = k).getD p.1, p.2) := by
  induction vs generalizing g with
  | nil => simp
  | cons v vs ih =>
    rw [List.map_cons, List.nodup_cons] at hnd
    rw [List.foldl_cons, ih hnd.2, editVertex_get?, Option.map_map]
    congr 1
    funext p
    by_cases hk : k = Vertex.id v
    · have hnone : vs.find? (fun w => decide (Vertex.id w = k)) = none := by
        rw [List.find?_eq_none]
        intro w hw hid
        exact hnd.1 (List.mem_map.mpr ⟨w, hw, (of_decide_eq_true hid).trans hk⟩)
      simp [hk ▸ hnone, hk]
    · simp [hk, Ne.symm hk]

/-- After edits of different vertices the network has the edited ones, where it had them before, and
those that no edit was about. -/
theorem mem_foldl_editVertex {vs : List T} (hnd : (vs.map Vertex.id).Nodup) (g : Network T) (v : T) :
    v ∈ (vs.foldl editVertex g).mapper.elems.map Prod.fst ↔
      (v ∈ vs ∧ ∃ i, g.map v = some i) ∨
        (v ∈ g.mapper.elems.map Prod.fst ∧ ∀ u ∈ vs, Vertex.id u ≠ Vertex.id v) := by
  have hmem : ∀ g : Network T, v ∈ g.mapper.elems.map Prod.fst ↔
      ∃ i, g.mapper.get? (Vertex.id v) = some (v, i) := by
    intro g
    rw [List.mem_map]
    constructor
    · rintro ⟨⟨w, i⟩, hw, rfl⟩
      exact ⟨i, KeySet.get?_key hw⟩
    · rintro ⟨i, hi⟩
      exact ⟨_, KeySet.mem_of_get? hi, rfl⟩
  have hget := foldl_editVertex_get? hnd g (Vertex.id v)
  rw [hmem, hmem, hget, map]
  cases hold : g.mapper.get? (Vertex.id v) with
  | none => simp
  | some q =>
    cases hf : vs.find? (fun u => decide (Vertex.id u = Vertex.id v)) with
    | none =>
      have hnone : ∀ u ∈ vs, Vertex.id u ≠ Vertex.id v := by simpa using hf
      have hv : v ∉ vs := fun hv => hnone v hv rfl
      simp only [Option.map_some, Option.getD_none, hv, false_and, false_or, Option.some.injEq]
      exact ⟨fun h => ⟨h, hnone⟩, fun h => h.1⟩
    | some u =>
      obtain ⟨hu, hid⟩ := (KeySet.get?_eq_some (s := (⟨vs, hnd⟩ : KeySet (Vertex.id (T := T))))).mp hf
      have hsame : u = v ↔ v ∈ vs :=
        ⟨fun h => h ▸ hu, fun hv => KeySet.eq_of_key_eq (⟨vs, hnd⟩ : KeySet (Vertex.id (T := T))) hu hv hid⟩
      have hedit : ¬ ∀ u ∈ vs, Vertex.id u ≠ Vertex.id v := fun h => h u hu hid
      simp [← hsame, hedit]

theorem foldl_editVertex_links (vs : List T) (g : Network T) : (vs.foldl editVertex g).links = g.links := by
  induction vs generalizing g with
  | nil => rfl
  | cons v vs ih => rw [List.foldl_cons, ih, editVertex_links]

theorem foldl_editVertex_pathStrategy (vs : List T) (g : Network T) :
    (vs.foldl editVertex g).pathStrategy = g.pathStrategy := by
  induction vs generalizing g with
  | nil => rfl
  | cons v vs ih => rw [List.foldl_cons, ih, editVertex_pathStrategy]

theorem foldl_editVertex_map (vs : List T) (g : Network T) (w : T) :
    (vs.foldl editVertex g).map w = g.map w := by
  induction vs generalizing g with
  | nil => rfl
  | cons v vs ih => rw [List.foldl_cons, ih, editVertex_map]

end Network

end Kollaps
