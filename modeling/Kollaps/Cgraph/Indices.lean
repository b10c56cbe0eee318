import Kollaps.Cgraph.Join

/-!
# Nodes and their indices

The nodes are numbered from zero on, whatever is done to the graph: a node that goes takes its
row with it, and all nodes keep their speeds to each other.
-/

namespace Kollaps

open Run

theorem SymMatrix.entry_of_index {α : Type} [Inhabited α] {m : SymMatrix α} {i j : Nat} {a : α}
    (h : m.index i j = .ok a) : m.entry i j = a := by
  rw [entry, List.getD_eq_getElem?_getD, get_eq_ok.mp h, Option.getD_some]

namespace Cgraph

/-! ## The speeds that a graph gives -/

/-- What `speeds` gives: the nodes in the order of their indices, and the speeds between them. -/
structure Speeds {I : Type} (g : CGraph I) (matrix : SymMatrix Nat) (infos : List I) : Prop where
  size : matrix.n = infos.length
  nodes : ∀ i info, infos[i]? = some info → ∃ node ∈ g.nodes.elems, node.index = i ∧ node.info = info
  len : infos.length = g.nodes.len
  speed : ∀ i j, i < infos.length → j < infos.length → matrix.entry i j = g.width i j % (u32Max + 1)

theorem speeds_ok {I : Type} {it : Iter} {g : CGraph I} {matrix : SymMatrix Nat} {infos : List I}
    (h : g.speeds it = .ok (matrix, infos)) : Speeds g matrix infos := by
  obtain ⟨m, hm, h⟩ := of_bind_eq_ok h
  obtain ⟨l, hl, h⟩ := of_bind_eq_ok h
  cases h
  obtain ⟨hn, hcells⟩ := SymMatrix.newFn_ok hm
  have hall := of_mapM_eq_ok hl
  have hlen : matrix.n = infos.length := by
    rw [← hall.length_eq, List.length_range]
    rfl
  refine ⟨hlen, fun i info hi => ?_, hlen ▸ hn, fun i j hi hj => ?_⟩
  · obtain ⟨hlt, hget⟩ := List.getElem?_eq_some_iff.mp hi
    have hnode := List.forall₂_iff_get.mp hall |>.2 i (by simpa [SymMatrix.size, hlen] using hlt) hlt
    obtain ⟨node, hfind, hinfo⟩ := of_bind_eq_ok hnode
    rw [CGraph.nodeByIndex, unwrap_eq_ok] at hfind
    have hmem := (it.mem_order).mp (List.mem_of_find?_eq_some hfind)
    have hindex := List.find?_some hfind
    refine ⟨node, hmem, ?_, ?_⟩
    · simpa using hindex
    · rw [← hget]
      exact Except.ok.inj hinfo
  · have hcell : ∀ i j, i ≤ j → j < infos.length → matrix.entry i j = g.width i j % (u32Max + 1) := by
      intro i j hij hj
      obtain ⟨d, hd, hentry⟩ := of_bind_eq_ok (hcells i j hij (by omega))
      rw [CGraph.width, SymMatrix.entry_of_index hd]
      exact (Except.ok.inj hentry).symm
    rcases Nat.le_total i j with hij | hij
    · exact hcell i j hij hj
    · rw [matrix.entry_comm, g.width_comm]
      exact hcell j i hij hi

namespace CGraph

variable {I : Type}

theorem nodeByIndex_returns {g : CGraph I} (hidx : g.Indexed) (it : Iter) {i : Nat} (hi : i < g.cGraph.n) :
    Returns (g.nodeByIndex it i) fun a => a ∈ g.nodes.elems ∧ a.index = i := by
  obtain ⟨b, hb, hbi⟩ := hidx.exists_node hi
  unfold nodeByIndex
  cases hfind : (it.order g.nodes.elems).find? fun n => n.index = i with
  | none => exact absurd hbi (by simpa using List.find?_eq_none.mp hfind b (it.mem_order.mpr hb))
  | some a =>
    rw [unwrap_some, returns_ok]
    exact ⟨it.mem_order.mp (List.mem_of_find?_eq_some hfind), by simpa using List.find?_some hfind⟩

theorem speeds_returns {g : CGraph I} (hidx : g.Indexed) (it : Iter) :
    Returns (g.speeds it) fun r => Speeds g r.1 r.2 := by
  have hreturns : Returns (g.speeds it) fun _ => True := by
    unfold speeds
    refine (SymMatrix.newFn_spec (P := fun _ _ _ => True) fun i j hij hj => ?_).bind fun m hm => ?_
    · have hlt : j < g.cGraph.n := hidx.size_eq ▸ hj
      rw [g.cGraph.index_eq (by omega) hlt, bind_ok, returns_pure]
      trivial
    · refine (Returns.mapM (P := fun _ _ => True) fun i hi => ?_).bind fun l _ => ⟨_, rfl, trivial⟩
      have hlt : i < g.cGraph.n := by
        rw [← hidx.size_eq, ← hm.1]
        exact List.mem_range.mp hi
      exact (nodeByIndex_returns hidx it hlt).bind fun a _ => ⟨_, rfl, trivial⟩
  obtain ⟨r, hr, -⟩ := hreturns
  exact ⟨r, hr, speeds_ok hr⟩

/-! ## What is left of a graph where a call fails -/

/-- `remove_one_by` with the graph that it leaves behind. -/
def removeOneByMut (it : Iter) (g : CGraph I) (predicate : Node I → Bool) : CGraph I × Run Unit :=
  match (it.order g.nodes.elems).find? predicate with
  | none =>
    (g, .error (.err ("[CGraph] Cannot remove the node you are searching for, " ++
      "predicates didn't give anything.")))
  | some node =>
    let g₁ : CGraph I := { g with nodes := g.nodes.remove node.index }
    match g.cGraph.removeId node.index with
    | .error e => (g₁, .error e)
    | .ok m =>
      let newNodes : KeySet (Node.index (I := I)) :=
        KeySet.collect ((it.order g₁.nodes.elems).map (lower node.index))
      if m.size ≠ newNodes.len then
        (g₁, .error (.err "Inconsistency after removing node from CGraph"))
      else (⟨m, newNodes⟩, pure ())

theorem removeOneBy_eq (it : Iter) (g : CGraph I) (predicate : Node I → Bool) :
    g.removeOneBy it predicate =
      (g.removeOneByMut it predicate).2.map fun _ => (g.removeOneByMut it predicate).1 := by
  unfold removeOneBy removeOneByMut
  cases (it.order g.nodes.elems).find? predicate with
  | none => rfl
  | some node =>
    simp only
    cases g.cGraph.removeId node.index with
    | error e => rfl
    | ok m =>
      simp only [bind_ok]
      split <;> rfl

/-! ## The numbering of a run -/

theorem mapNodes_elems (it : Iter) (g : CGraph I) (map : I → I) : (g.mapNodes it map).nodes.elems.Perm
    (g.nodes.elems.map fun n => { n with info := map n.info }) := by
  have hkeys : ((it.order g.nodes.elems).map fun n => ({ n with info := map n.info } : Node I)).map
      Node.index = (it.order g.nodes.elems).map Node.index := by
    rw [List.map_map]
    rfl
  refine (KeySet.elems_collect ?_).trans ((it.perm _).map _)
  rw [hkeys]
  exact ((it.perm _).map _).nodup_iff.mpr g.nodes.nodup

theorem Indexed.mapNodes {g : CGraph I} (h : g.Indexed) (it : Iter) (map : I → I) :
    (g.mapNodes it map).Indexed := by
  refine ((mapNodes_elems it g map).map Node.index).trans ?_
  rw [List.map_map]
  exact h

/-- The speeds are numbers of a `usize`, and no node is limited to itself. -/
structure Bounded (m : SymMatrix TestData) : Prop where
  self : ∀ i, i < m.n → (m.entry i i).speed = usizeMax
  bound : ∀ i j, i < m.n → j < m.n → (m.entry i j).speed ≤ usizeMax

theorem Bounded.modify {m m' : SymMatrix TestData} (h : Bounded m) {i j : Nat} {f : TestData → TestData}
    (hi : i < m.n) (hj : j < m.n) (hne : i ≠ j) (hf : (f (m.entry i j)).speed ≤ usizeMax)
    (hm : m.modify i j f = .ok m') : Bounded m' ∧ m'.n = m.n := by
  obtain ⟨hn, hentry⟩ := (SymMatrix.modify_spec m hi hj f).of_eq hm
  refine ⟨⟨fun p hp => ?_, fun p q hp hq => ?_⟩, hn⟩
  · rw [hentry p p (by omega) (by omega), if_neg (by omega)]
    exact h.self p (by omega)
  · rw [hentry p q (by omega) (by omega)]
    split
    · exact hf
    · exact h.bound p q (by omega) (by omega)

theorem Added.bounded {g g' : CGraph I} {node : Node I} (h : Added g node g') (hb : Bounded g.cGraph) :
    Bounded g'.cGraph := by
  have hnew : ∀ p, p < g.cGraph.n → (g'.cGraph.entry p g.cGraph.n).speed ≤ usizeMax := by
    intro p hp
    rw [h.untested p hp]
    exact Nat.zero_le _
  have hle : ∀ p q, p ≤ q → q < g'.cGraph.n → (g'.cGraph.entry p q).speed ≤ usizeMax := by
    intro p q hpq hq
    rw [h.size] at hq
    rcases Nat.lt_succ_iff_lt_or_eq.mp hq with hlt | rfl
    · rw [h.old p q (by omega) hlt]
      exact hb.bound p q (by omega) hlt
    · rcases Nat.lt_or_eq_of_le hpq with hlt | rfl
      · exact hnew p hlt
      · exact h.self.le
  refine ⟨fun p hp => ?_, fun p q hp hq => ?_⟩
  · rw [h.size] at hp
    rcases Nat.lt_succ_iff_lt_or_eq.mp hp with hlt | rfl
    · rw [h.old p p hlt hlt]
      exact hb.self p hlt
    · exact h.self
  · rcases Nat.le_total p q with hpq | hpq
    · exact hle p q hpq hq
    · rw [g'.cGraph.entry_comm]
      exact hle q p hpq hp

theorem Removed.bounded {g g' : CGraph I} {node : Node I} (h : Removed g node g') (hidx : g.Indexed)
    (hb : Bounded g.cGraph) : Bounded g'.cGraph := by
  have hlt := hidx.index_lt h.mem
  have hshift : ∀ p, p < g'.cGraph.n → SymMatrix.shift node.index p < g.cGraph.n := by
    intro p hp
    rw [h.size] at hp
    unfold SymMatrix.shift
    split <;> omega
  refine ⟨fun p hp => ?_, fun p q hp hq => ?_⟩
  · rw [h.entries p p (h.size ▸ hp) (h.size ▸ hp)]
    exact hb.self _ (hshift p hp)
  · rw [h.entries p q (h.size ▸ hp) (h.size ▸ hq)]
    exact hb.bound _ _ (hshift p hp) (hshift q hq)

theorem Updated.bounded {g g' : CGraph I} {i j k : Nat} (h : Updated i j k g g') (hi : i < g.cGraph.n)
    (hj : j < g.cGraph.n) (hk : k < g.cGraph.n) (hb : Bounded g.cGraph) : Bounded g'.cGraph := by
  have hmax : max (g.width i j) (min (g.width i k) (g.width k j)) ≤ usizeMax :=
    max_le (hb.bound i j hi hj) ((min_le_left _ _).trans (hb.bound i k hi hk))
  refine ⟨fun p hp => ?_, fun p q hp hq => ?_⟩
  · rw [h.size] at hp
    refine (h.width p p hp hp).trans ?_
    split <;> rename_i hsame
    · obtain ⟨rfl, rfl⟩ : p = i ∧ p = j := by omega
      exact le_antisymm hmax ((hb.self p hp).symm.le.trans (le_max_left _ _))
    · exact hb.self p hp
  · rw [h.size] at hp hq
    refine (h.width p q hp hq).trans_le ?_
    split
    · exact hmax
    · exact hb.bound p q hp hq

/-! ## The operations -/

theorem shortcut_bounded {from_ to_ : Node I} {ks : List (Node I)} {m : SymMatrix TestData}
    {r : SymMatrix TestData × Bool} (hb : Bounded m) (hfrom : from_.index < m.n) (hto : to_.index < m.n)
    (hne : from_.index ≠ to_.index) (hks : ∀ k ∈ ks, k.index < m.n)
    (h : shortcut from_ to_ ks m = .ok r) : Bounded r.1 := by
  induction ks with
  | nil =>
    cases h
    exact hb
  | cons k rest ih =>
    have ih := ih fun k hk => hks k (List.mem_cons_of_mem _ hk)
    have hk := hks k List.mem_cons_self
    unfold shortcut at h
    split at h
    · exact ih h
    rw [m.index_eq hfrom hk, m.index_eq hk hto, bind_ok, bind_ok] at h
    split at h
    · split at h
      · exact ih h
      obtain ⟨m₁, hm₁, h⟩ := of_bind_eq_ok h
      obtain ⟨m₂, hm₂, h⟩ := of_bind_eq_ok h
      cases h
      have hspeed : (if (m.entry from_.index k.index).speed > (m.entry k.index to_.index).speed then
          (m.entry k.index to_.index).speed else (m.entry from_.index k.index).speed) ≤ usizeMax := by
        split
        · exact hb.bound _ _ hk hto
        · exact hb.bound _ _ hfrom hk
      obtain ⟨hb₁, hn₁⟩ := hb.modify hfrom hto hne hspeed hm₁
      exact (hb₁.modify (hn₁ ▸ hfrom) (hn₁ ▸ hto) hne
        (hb₁.bound _ _ (hn₁ ▸ hfrom) (hn₁ ▸ hto)) hm₂).1
    · exact ih h

theorem missingRound_bounded {nodes : List (Node I)} {me to_ : Node I} {sufficientSpeed : Nat}
    {s s' : SymMatrix TestData × List (Node I)} (hb : Bounded s.1) (hme : me.index < s.1.n)
    (hto : to_.index < s.1.n) (hnodes : ∀ k ∈ nodes, k.index < s.1.n)
    (h : missingRound nodes me sufficientSpeed s to_ = .ok s') : Bounded s'.1 := by
  unfold missingRound at h
  split at h
  · cases h
    exact hb
  rename_i hne
  obtain ⟨d, -, h⟩ := of_bind_eq_ok h
  split at h
  · obtain ⟨⟨m, ignoreTest⟩, hm, h⟩ := of_bind_eq_ok h
    have hbm := shortcut_bounded hb hme hto hne hnodes hm
    simp only at h
    split at h <;> cases h <;> exact hbm
  · cases h
    exact hb

theorem findMissingFromMe_bounded {it : Iter} {g : CGraph I} {me : Node I} {sufficientSpeed : Nat}
    {r : CGraph I × Option (Node I)} (hidx : g.Indexed) (hb : Bounded g.cGraph) (hme : me ∈ g.nodes.elems)
    (h : g.findMissingFromMe it me sufficientSpeed = .ok r) : Bounded r.1.cGraph := by
  unfold findMissingFromMe at h
  obtain ⟨⟨m, missing⟩, hm, h⟩ := of_bind_eq_ok h
  cases h
  refine (foldlM_ok_inv (fun s => Bounded s.1 ∧ s.1.n = g.cGraph.n) ⟨hb, rfl⟩
    (fun to_ hto s s' hs h => ?_) hm).1
  obtain ⟨hbs, hn⟩ := hs
  refine ⟨missingRound_bounded hbs (hn ▸ hidx.index_lt hme) (hn ▸ hidx.index_lt (it.mem_order.mp hto))
    (fun k hk => hn ▸ hidx.index_lt (it.mem_order.mp hk)) h, (missingRound_n h).trans hn⟩

theorem addLinkDirectTest_bounded {g : CGraph I} {from_ to_ : Node I} {speed : Nat}
    {r : CGraph I × Bool} (hidx : g.Indexed) (hb : Bounded g.cGraph) (hne : from_.index ≠ to_.index)
    (hspeed : speed ≤ usizeMax) (h : g.addLinkDirectTest from_ to_ speed = .ok r) : Bounded r.1.cGraph := by
  obtain ⟨hfrom, hto, hle⟩ := addLinkDirectTest_ok h
  refine (addLinkDirectTest_spec (P := fun g' => Bounded g'.cGraph) hidx hfrom hto hle
    fun g₁ hm => ?_).of_eq h
  have hb₁ : Bounded g₁.cGraph := by
    refine ⟨fun p hp => ?_, fun p q hp hq => ?_⟩
    · rw [hm.size] at hp
      rw [hm.entries p p hp hp, if_neg (by omega)]
      exact hb.self p hp
    · rw [hm.size] at hp hq
      rw [hm.entries p q hp hq]
      split
      · exact hspeed
      · exact hb.bound p q hp hq
  have hidx₁ : g₁.Indexed := by
    unfold Indexed
    rw [hm.nodes, hm.size]
    exact hidx
  refine (updateSpeeds_inv (P := fun g' => Bounded g'.cGraph) hidx₁ hb₁
    fun i j k g' g'' hi hj hk _ hn hb' hu => ?_).mono fun g' hg' => hg'.2.2
  exact hu.bounded (hn ▸ hi) (hn ▸ hj) (hn ▸ hk) hb'

/-- The graphs of a run. The nodes that are tested, and the one that asks, are nodes of the graph. -/
inductive Handled [DecidableEq I] : CGraph I → Prop
  | new : Handled CGraph.new
  | addNode {g g' : CGraph I} {node : Node I} (it : Iter) (speed : Nat) (info : I) (h : Handled g)
      (hg' : g.addNode it speed info = .ok (g', node)) : Handled g'
  | removeOneBy {g g' : CGraph I} (it : Iter) (predicate : Node I → Bool) (h : Handled g)
      (hg' : g.removeOneBy it predicate = .ok g') : Handled g'
  | mapNodes {g : CGraph I} (it : Iter) (map : I → I) (h : Handled g) : Handled (g.mapNodes it map)
  | addLinkDirectTest {g g' : CGraph I} {useful : Bool} (from_ to_ : Node I) (speed : Nat)
      (h : Handled g) (hfrom : from_ ∈ g.nodes.elems) (hto : to_ ∈ g.nodes.elems) (hne : from_ ≠ to_)
      (hspeed : speed ≤ usizeMax) (hg' : g.addLinkDirectTest from_ to_ speed = .ok (g', useful)) : Handled g'
  | findMissingFromMe {g g' : CGraph I} {other : Option (Node I)} (it : Iter) (me : Node I)
      (sufficientSpeed : Nat) (h : Handled g) (hme : me ∈ g.nodes.elems)
      (hg' : g.findMissingFromMe it me sufficientSpeed = .ok (g', other)) : Handled g'

theorem Framed.indexed {g g' : CGraph I} (h : Framed g g') (hidx : g.Indexed) : g'.Indexed := by
  unfold Indexed
  rw [h.nodes, h.size]
  exact hidx

theorem Handled.numbered [DecidableEq I] {g : CGraph I} (h : Handled g) : g.Indexed ∧ Bounded g.cGraph := by
  induction h with
  | new =>
    exact ⟨Indexed.new,
      ⟨fun i hi => absurd hi (Nat.not_lt_zero i), fun i _ hi => absurd hi (Nat.not_lt_zero i)⟩⟩
  | addNode it speed info _ hg' ih =>
    obtain ⟨hidx, hb⟩ := ih
    rcases ((addNode_spec it hidx speed info).of_eq hg').2.2 with heq | ⟨-, hadded⟩
    · cases heq
      exact ⟨hidx, hb⟩
    · exact ⟨hadded.indexed hidx, hadded.bounded hb⟩
  | removeOneBy it predicate _ hg' ih =>
    obtain ⟨hidx, hb⟩ := ih
    obtain ⟨node, -, hremoved⟩ := (removeOneBy_spec it hidx (removeOneBy_ok hg')).of_eq hg'
    exact ⟨hremoved.indexed hidx, hremoved.bounded hidx hb⟩
  | mapNodes it map _ ih => exact ⟨ih.1.mapNodes it map, ih.2⟩
  | @addLinkDirectTest g g' useful from_ to_ speed _ hfrom hto hne hspeed hg' ih =>
    have hne' : from_.index ≠ to_.index := mt (g.nodes.eq_of_key_eq hfrom hto) hne
    exact ⟨(addLinkDirectTest_framed hg').indexed ih.1, addLinkDirectTest_bounded ih.1 ih.2 hne' hspeed hg'⟩
  | findMissingFromMe it me sufficientSpeed _ hme hg' ih =>
    exact ⟨(findMissingFromMe_framed hg').indexed ih.1, findMissingFromMe_bounded ih.1 ih.2 hme hg'⟩

theorem shift_lower {r : Nat} {a : Node I} (ha : a.index ≠ r) :
    SymMatrix.shift r (lower r a).index = a.index := by
  rw [lower_index]
  unfold SymMatrix.shift
  split <;> split <;> omega

theorem Removed.index {g g' : CGraph I} {node : Node I} (h : Removed g node g') (hidx : g.Indexed)
    {a b : Node I} (ha : a ∈ g.nodes.elems) (hb : b ∈ g.nodes.elems) (hane : a.index ≠ node.index)
    (hbne : b.index ≠ node.index) : g'.cGraph.index (lower node.index a).index (lower node.index b).index =
      g.cGraph.index a.index b.index := by
  have hleft : ∀ c ∈ g.nodes.elems, c.index ≠ node.index → lower node.index c ∈ g'.nodes.elems := by
    intro c hc hne
    refine h.nodes.mem_iff.mpr (List.mem_map_of_mem (List.mem_filter.mpr ⟨hc, ?_⟩))
    exact decide_eq_true hne
  have hidx' := h.indexed hidx
  have hla := hleft a ha hane
  have hlb := hleft b hb hbne
  rw [SymMatrix.index_eq _ (hidx'.index_lt hla) (hidx'.index_lt hlb),
    SymMatrix.index_eq _ (hidx.index_lt ha) (hidx.index_lt hb), h.entry hidx hla hlb, shift_lower hane,
    shift_lower hbne]

theorem removeOneByMut_spec {g : CGraph I} (hidx : g.Indexed) (it : Iter) (predicate : Node I → Bool) :
    ((∃ a ∈ g.nodes.elems, predicate a = true) → ∃ g', g.removeOneByMut it predicate = (g', .ok ()) ∧
      ∃ node, predicate node = true ∧ Removed g node g') ∧
    ((∀ a ∈ g.nodes.elems, predicate a = false) → g.removeOneByMut it predicate =
      (g, .error (.err ("[CGraph] Cannot remove the node you are searching for, " ++
        "predicates didn't give anything.")))) := by
  constructor
  · intro hex
    obtain ⟨g', hg', hremoved⟩ := removeOneBy_spec it hidx hex
    rw [removeOneBy_eq] at hg'
    refine ⟨g', ?_, hremoved⟩
    cases hr : (g.removeOneByMut it predicate).2 with
    | error e =>
      rw [hr] at hg'
      cases hg'
    | ok u =>
      rw [hr] at hg'
      exact Prod.ext (Except.ok.inj hg') hr
  · intro hnone
    have hfind : (it.order g.nodes.elems).find? predicate = none := by
      rw [List.find?_eq_none]
      intro a ha
      simp [hnone a (it.mem_order.mp ha)]
    unfold removeOneByMut
    rw [hfind]

/-- The indices after every run, what a removal keeps, and what `speeds` gives. -/
theorem indexing [DecidableEq I] {g : CGraph I} (h : Handled g) :
    ((g.nodes.elems.map Node.index).Perm (List.range g.size) ∧ g.cGraph.size = g.size ∧
      ∀ i, i < g.size → Returns (g.cGraph.index i i) fun d => d.speed = usizeMax) ∧
    (∀ (it : Iter) (predicate : Node I → Bool), (∃ a ∈ g.nodes.elems, predicate a = true) →
      ∃ g', g.removeOneByMut it predicate = (g', .ok ()) ∧
        ∃ node ∈ g.nodes.elems, predicate node = true ∧
          g'.nodes.elems.Perm ((g.nodes.elems.filter fun a => a.index ≠ node.index).map (lower node.index)) ∧
          (∀ a : Node I, (lower node.index a).speed = a.speed ∧ (lower node.index a).info = a.info) ∧
          ∀ a ∈ g.nodes.elems, ∀ b ∈ g.nodes.elems, a.index ≠ node.index → b.index ≠ node.index →
            g'.cGraph.index (lower node.index a).index (lower node.index b).index =
              g.cGraph.index a.index b.index) ∧
    (∀ (it : Iter) (predicate : Node I → Bool), (∀ a ∈ g.nodes.elems, predicate a = false) →
      g.removeOneByMut it predicate =
        (g, .error (.err ("[CGraph] Cannot remove the node you are searching for, " ++
          "predicates didn't give anything.")))) ∧
    ∀ it, Returns (g.speeds it) fun r => r.1.size = g.size ∧ r.2.length = g.size ∧
      ∀ i j, i < g.size → j < g.size → ∃ a ∈ g.nodes.elems, ∃ b ∈ g.nodes.elems,
        r.2[i]? = some a.info ∧ r.2[j]? = some b.info ∧
        Returns (g.cGraph.index a.index b.index) fun d => r.1.index i j = .ok (d.speed % (u32Max + 1)) := by
  obtain ⟨hidx, hb⟩ := h.numbered
  have hsize : g.size = g.cGraph.n := hidx.size_eq
  refine ⟨⟨?_, hsize.symm, fun i hi => ?_⟩, fun it predicate hex => ?_, fun it predicate hnone => ?_,
    fun it => ?_⟩
  · rw [hsize]
    exact hidx
  · rw [hsize] at hi
    rw [g.cGraph.index_eq hi hi, returns_ok]
    exact hb.self i hi
  · obtain ⟨g', hg', node, hnode, hr⟩ := (removeOneByMut_spec hidx it predicate).1 hex
    exact ⟨g', hg', node, hr.mem, hnode, hr.nodes, fun a => ⟨lower_speed _ a, lower_info _ a⟩,
      fun a ha b hb' => hr.index hidx ha hb'⟩
  · exact (removeOneByMut_spec hidx it predicate).2 hnone
  · refine (speeds_returns hidx it).mono fun r hr => ?_
    have hlen : r.2.length = g.size := hr.len
    refine ⟨hr.size.trans hlen, hlen, fun i j hi hj => ?_⟩
    rw [← hlen] at hi hj
    obtain ⟨a, ha, hai, hainfo⟩ := hr.nodes i _ (List.getElem?_eq_getElem hi)
    obtain ⟨b, hb', hbj, hbinfo⟩ := hr.nodes j _ (List.getElem?_eq_getElem hj)
    refine ⟨a, ha, b, hb', ?_, ?_, ?_⟩
    · rw [List.getElem?_eq_getElem hi, hainfo]
    · rw [List.getElem?_eq_getElem hj, hbinfo]
    · rw [g.cGraph.index_eq (hidx.index_lt ha) (hidx.index_lt hb'), returns_ok,
        r.1.index_eq (hr.size ▸ hi) (hr.size ▸ hj), hr.speed i j hi hj, hai, hbj, width]

/-! ## Two runs -/

theorem demoTested_handled : Handled demoTested :=
  .addLinkDirectTest ⟨1, 60, 8⟩ ⟨0, 100, 7⟩ 40
    (.addNode Iter.inOrder 60 8 (.addNode Iter.inOrder 100 7 .new demoOne_add) demoTwo_add)
    (by decide) (by decide) (by decide) (by decide) demoTwo_test

theorem indexing_demo : (demoTested.nodes.elems.map Node.index).Perm (List.range 2) ∧
    (∃ g', demoTested.removeOneByMut Iter.inOrder (fun n => n.info = 7) = (g', .ok ())) ∧
    ∀ it, Returns (demoTested.speeds it) fun r => r.2.length = 2 := by
  obtain ⟨⟨hperm, -⟩, hremove, -, hspeeds⟩ := indexing demoTested_handled
  obtain ⟨g', hg', -⟩ := hremove Iter.inOrder (fun n => n.info = 7) ⟨⟨0, 100, 7⟩, by decide, by decide⟩
  exact ⟨hperm, ⟨g', hg'⟩, fun it => (hspeeds it).mono fun r hr => hr.2.1⟩

/-- A speed that takes more than 32 bits, between two nodes that are faster still. -/
theorem speeds_low_bits : ∃ g : CGraph Nat, Handled g ∧
    (Returns (g.cGraph.index 0 1) fun d => d.speed = 4294967303) ∧
    Returns (g.speeds Iter.inOrder) fun r => r.2 = [7, 8] ∧ r.1.index 0 1 = .ok 7 := by
  have hrun : Returns (CGraph.new.addNode Iter.inOrder 8589934592 7) fun r₁ =>
      Returns (r₁.1.addNode Iter.inOrder 8589934592 8) fun r₂ =>
        r₁.2 ∈ r₂.1.nodes.elems ∧ r₂.2 ∈ r₂.1.nodes.elems ∧ r₁.2 ≠ r₂.2 ∧
        Returns (r₂.1.addLinkDirectTest r₁.2 r₂.2 4294967303) fun r₃ =>
          (Returns (r₃.1.cGraph.index 0 1) fun d => d.speed = 4294967303) ∧
          Returns (r₃.1.speeds Iter.inOrder) fun r => r.2 = [7, 8] ∧ r.1.index 0 1 = .ok 7 := by
    decide +kernel
  obtain ⟨⟨g₁, a⟩, h₁, ⟨g₂, b⟩, h₂, ha, hb, hne, ⟨g₃, useful⟩, h₃, hentry, hspeeds⟩ := hrun
  have hhandled : Handled g₂ := .addNode _ _ _ (.addNode _ _ _ .new h₁) h₂
  exact ⟨g₃, .addLinkDirectTest a b _ hhandled ha hb hne (by decide) h₃, hentry, hspeeds⟩

end CGraph

end Cgraph

end Kollaps
