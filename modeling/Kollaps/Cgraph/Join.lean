import Kollaps.Cgraph.Speeds

/-!
# Completing the graph

A node that joins measures its speed to the nodes that `find_missing_from_me` names, until
there is none. When the true speeds are those of a tree network, the table is then right, or
sufficient, between any two nodes, although most pairs were never measured.
-/

namespace Kollaps

open Run

namespace Cgraph

variable {I : Type}

namespace CGraph

/-- One round of the `while let` of `complete_graph`. Keeps the tested nodes for the record.
The set may be iterated in another order in each round. -/
def completeRound (its : Nat → Iter) (measure : Node I → Run Nat) (me : Node I) (sufficientSpeed : Nat)
    (s : CGraph I × List (Node I)) : Run ((CGraph I × List (Node I)) ⊕ (CGraph I × List (Node I))) := do
  let (g, missing) ← s.1.findMissingFromMe (its s.2.length) me sufficientSpeed
  match missing with
  | none => pure (.inr (g, s.2))
  | some other => do
    let speed ← measure other
    let (g, _) ← g.addLinkDirectTest me other speed
    pure (.inl (g, s.2 ++ [other]))

/-- `complete_graph` of the node that joins. -/
def completeGraph [DecidableEq I] (fuel : Nat) (its : Nat → Iter) (measure : Node I → Run Nat)
    (mySpeed : Nat) (myInfo : I) (sufficientSpeed : Nat) (g : CGraph I) :
    Run (Node I × CGraph I × List (Node I)) := do
  let (g, me) ← g.addNode (its 0) mySpeed myInfo
  let (g, tests) ← loop fuel (completeRound its measure me sufficientSpeed) (g, [])
  pure (me, g, tests)

/-! ## The nodes of a completed graph -/

theorem shortcut_n {from_ to_ : Node I} {ks : List (Node I)} {m : SymMatrix TestData}
    {r : SymMatrix TestData × Bool} (h : shortcut from_ to_ ks m = .ok r) : r.1.n = m.n := by
  induction ks with
  | nil =>
    cases h
    rfl
  | cons k rest ih =>
    unfold shortcut at h
    split at h
    · exact ih h
    obtain ⟨fromK, -, h⟩ := of_bind_eq_ok h
    obtain ⟨kTo, -, h⟩ := of_bind_eq_ok h
    split at h
    · split at h
      · exact ih h
      obtain ⟨m', hm', h⟩ := of_bind_eq_ok h
      obtain ⟨m'', hm'', h⟩ := of_bind_eq_ok h
      cases h
      exact (modify_n hm'').trans (modify_n hm')
    · exact ih h

theorem missingRound_n {nodes : List (Node I)} {me to_ : Node I} {sufficientSpeed : Nat}
    {s s' : SymMatrix TestData × List (Node I)}
    (h : missingRound nodes me sufficientSpeed s to_ = .ok s') : s'.1.n = s.1.n := by
  unfold missingRound at h
  split at h
  · cases h
    rfl
  obtain ⟨d, -, h⟩ := of_bind_eq_ok h
  split at h
  · obtain ⟨⟨m, ignoreTest⟩, hm, h⟩ := of_bind_eq_ok h
    simp only at h
    split at h <;> cases h
    · exact shortcut_n hm
    · exact shortcut_n hm
  · cases h
    rfl

theorem findMissingFromMe_framed {it : Iter} {g : CGraph I} {me : Node I} {sufficientSpeed : Nat}
    {r : CGraph I × Option (Node I)} (h : g.findMissingFromMe it me sufficientSpeed = .ok r) :
    Framed g r.1 := by
  unfold findMissingFromMe at h
  obtain ⟨⟨m, missing⟩, hm, h⟩ := of_bind_eq_ok h
  cases h
  exact ⟨rfl, foldlM_ok_inv (fun s => s.1.n = g.cGraph.n) rfl
    (fun to_ _ s s' hs h => (missingRound_n h).trans hs) hm⟩

theorem completeRound_framed {its : Nat → Iter} {measure : Node I → Run Nat} {me : Node I}
    {sufficientSpeed : Nat} {s : CGraph I × List (Node I)}
    {r : (CGraph I × List (Node I)) ⊕ (CGraph I × List (Node I))}
    (h : completeRound its measure me sufficientSpeed s = .ok r) :
    Framed s.1 (r.elim Prod.fst Prod.fst) := by
  unfold completeRound at h
  obtain ⟨⟨g, missing⟩, hfind, h⟩ := of_bind_eq_ok h
  cases missing with
  | none =>
    cases h
    exact findMissingFromMe_framed hfind
  | some other =>
    obtain ⟨speed, -, h⟩ := of_bind_eq_ok h
    obtain ⟨⟨g', useful⟩, htest, h⟩ := of_bind_eq_ok h
    cases h
    exact (findMissingFromMe_framed hfind).trans (addLinkDirectTest_framed htest)

theorem completeGraph_infos [DecidableEq I] {fuel : Nat} {its : Nat → Iter} {measure : Node I → Run Nat}
    {mySpeed sufficientSpeed : Nat} {myInfo : I} {g : CGraph I} {r : Node I × CGraph I × List (Node I)}
    (hwf : g.Wf) (h : completeGraph fuel its measure mySpeed myInfo sufficientSpeed g = .ok r) :
    r.2.1.Wf ∧ ∀ x, x ∈ r.2.1.infos ↔ x ∈ g.infos ∨ x = myInfo := by
  unfold completeGraph at h
  obtain ⟨⟨g₁, me⟩, hadd, h⟩ := of_bind_eq_ok h
  obtain ⟨⟨g₂, tests⟩, hloop, h⟩ := of_bind_eq_ok h
  cases h
  have hframed : Framed g₁ g₂ := by
    refine loop_ok_inv (fun s => Framed g₁ s.1) (fun s => Framed g₁ s.1) ⟨rfl, rfl⟩
      (fun s s' hs h => ?_) (fun s s' hs h => ?_) hloop
    · exact hs.trans (completeRound_framed h)
    · exact hs.trans (completeRound_framed h)
  obtain ⟨hme, hinfo, hadded⟩ := (addNode_spec (its 0) hwf.indexed mySpeed myInfo).of_eq hadd
  have hinfos : g₂.infos = g₁.infos := by rw [infos, infos, hframed.nodes]
  rcases hadded with heq | ⟨-, hadded⟩
  · cases heq
    refine ⟨hframed.wf hwf, fun x => ?_⟩
    rw [hinfos]
    refine ⟨Or.inl, fun hx => hx.elim (fun hx => hx) fun hx => ?_⟩
    rw [hx, ← hinfo]
    exact List.mem_map_of_mem hme
  · refine ⟨hframed.wf (hadded.wf hwf), fun x => ?_⟩
    rw [hinfos, infos, hadded.nodes, List.map_cons, List.mem_cons, show me.info = myInfo from hinfo]
    exact or_comm

/-! ## True speeds -/

/-- The speeds of a tree network in which a node `a` is limited to `cap a`. -/
structure TreeSpeeds (T : I → I → Nat) (cap : I → Nat) : Prop where
  symm : ∀ a b, T a b = T b a
  le_cap : ∀ a b, T a b ≤ min (cap a) (cap b)
  bottleneck : ∀ a b c, min (T a b) (T b c) ≤ T a c

/-- Two hops of different speeds tell the speed of the direct way. -/
theorem TreeSpeeds.eq_min {T : I → I → Nat} {cap : I → Nat} (h : TreeSpeeds T cap) {a b c : I}
    (hne : T a b ≠ T b c) : T a c = min (T a b) (T b c) := by
  have h1 := h.bottleneck a b c
  have h2 := h.bottleneck b a c
  have h3 := h.bottleneck a c b
  rw [h.symm b a] at h2
  rw [h.symm c b] at h3
  omega

/-- The table is nowhere above the true speeds, and a flagged entry is exact. -/
structure Sound (T : I → I → Nat) (cap : I → Nat) (g : CGraph I) : Prop where
  wf : g.Wf
  speed : ∀ a ∈ g.nodes.elems, a.speed = cap a.info
  below : ∀ a ∈ g.nodes.elems, ∀ b ∈ g.nodes.elems, a.index ≠ b.index →
    g.width a.index b.index ≤ T a.info b.info
  exact : ∀ a ∈ g.nodes.elems, ∀ b ∈ g.nodes.elems, a.index ≠ b.index →
    (g.cGraph.entry a.index b.index).isDirectlyTested = true ∨
      (g.cGraph.entry a.index b.index).isLimited = false → g.width a.index b.index = T a.info b.info

structure Better (g g' : CGraph I) : Prop where
  nodes : g'.nodes = g.nodes
  size : g'.cGraph.n = g.cGraph.n
  width : ∀ p q, p < g.cGraph.n → q < g.cGraph.n → p ≠ q → g.width p q ≤ g'.width p q
  tested : ∀ p q, p < g.cGraph.n → q < g.cGraph.n →
    (g.cGraph.entry p q).isDirectlyTested = true → (g'.cGraph.entry p q).isDirectlyTested = true

theorem Better.refl (g : CGraph I) : Better g g :=
  ⟨rfl, rfl, fun _ _ _ _ _ => le_refl _, fun _ _ _ _ h => h⟩

theorem Better.trans {g g' g'' : CGraph I} (h : Better g g') (h' : Better g' g'') : Better g g'' :=
  ⟨h'.nodes.trans h.nodes, h'.size.trans h.size,
    fun p q hp hq hpq => (h.width p q hp hq hpq).trans
      (h'.width p q (h.size.symm ▸ hp) (h.size.symm ▸ hq) hpq),
    fun p q hp hq ht => h'.tested p q (h.size.symm ▸ hp) (h.size.symm ▸ hq) (h.tested p q hp hq ht)⟩

section Exact

variable {T : I → I → Nat} {cap : I → Nat} {g g' : CGraph I}

theorem Sound.of_better (h : g.Sound T cap) (hb : Better g g')
    (hbelow : ∀ a ∈ g.nodes.elems, ∀ b ∈ g.nodes.elems, a.index ≠ b.index →
      g'.width a.index b.index ≤ T a.info b.info)
    (hexact : ∀ a ∈ g.nodes.elems, ∀ b ∈ g.nodes.elems, a.index ≠ b.index →
      (g'.cGraph.entry a.index b.index).isDirectlyTested = true ∨
        (g'.cGraph.entry a.index b.index).isLimited = false →
      ((g.cGraph.entry a.index b.index).isDirectlyTested = true ∨
        (g.cGraph.entry a.index b.index).isLimited = false) ∨
      T a.info b.info ≤ g'.width a.index b.index) : g'.Sound T cap := by
  refine ⟨⟨?_, ?_⟩, ?_, ?_, ?_⟩
  · rw [hb.nodes, hb.size]
    exact h.wf.indices
  · rw [infos, hb.nodes]
    exact h.wf.infos
  · rw [hb.nodes]
    exact h.speed
  · rw [hb.nodes]
    exact hbelow
  · rw [hb.nodes]
    intro a ha b hb' hab hflag
    refine le_antisymm (hbelow a ha b hb' hab) ?_
    rcases hexact a ha b hb' hab hflag with hold | hle
    · rw [← h.exact a ha b hb' hab hold]
      exact hb.width _ _ (h.wf.index_lt ha) (h.wf.index_lt hb') hab
    · exact hle

/-! ## Updates by transition -/

theorem Updated.better {i j k : Nat} (h : Updated i j k g g') : Better g g' := by
  refine ⟨h.nodes, h.size, fun p q hp hq _ => ?_, fun p q hp hq ht => ?_⟩
  · rw [h.width p q hp hq]
    split <;> rename_i hpq
    · rcases hpq with ⟨rfl, rfl⟩ | ⟨rfl, rfl⟩
      · exact le_max_left _ _
      · rw [width_comm]
        exact le_max_left _ _
    · exact le_refl _
  · rw [h.tested p q hp hq]
    exact ht

theorem Sound.le_minSpeed (hT : TreeSpeeds T cap) (h : g.Sound T cap) {a b : Node I}
    (ha : a ∈ g.nodes.elems) (hb : b ∈ g.nodes.elems) {i j v : Nat} (hij : SamePair a.index b.index i j)
    (hv : g.minSpeed i j = some v) : T a.info b.info ≤ v := by
  have hmem := List.min?_mem hv
  obtain ⟨c, hc, rfl⟩ := List.mem_map.mp hmem
  rw [List.mem_filter, decide_eq_true_eq] at hc
  have hcap := hT.le_cap a.info b.info
  rw [h.speed c hc.1]
  have hsame : c = a ∨ c = b := by
    rcases hij with ⟨rfl, rfl⟩ | ⟨rfl, rfl⟩ <;> rcases hc.2 with hci | hci
    · exact Or.inl (g.nodes.eq_of_key_eq hc.1 ha hci)
    · exact Or.inr (g.nodes.eq_of_key_eq hc.1 hb hci)
    · exact Or.inr (g.nodes.eq_of_key_eq hc.1 hb hci)
    · exact Or.inl (g.nodes.eq_of_key_eq hc.1 ha hci)
  rcases hsame with rfl | rfl
  · exact hcap.trans (min_le_left _ _)
  · exact hcap.trans (min_le_right _ _)

theorem Sound.transition_le (hT : TreeSpeeds T cap) (h : g.Sound T cap) {a b : Node I}
    (ha : a ∈ g.nodes.elems) (hb : b ∈ g.nodes.elems) (hab : a.index ≠ b.index) {k : Nat}
    (hk : k < g.cGraph.n) :
    max (g.width a.index b.index) (min (g.width a.index k) (g.width k b.index)) ≤
      T a.info b.info := by
  refine max_le (h.below a ha b hb hab) ?_
  rcases eq_or_ne k a.index with rfl | hka
  · exact (min_le_right _ _).trans (h.below a ha b hb hab)
  rcases eq_or_ne k b.index with rfl | hkb
  · exact (min_le_left _ _).trans (h.below a ha b hb hab)
  obtain ⟨c, hc, rfl⟩ := h.wf.exists_node hk
  exact (min_le_min (h.below a ha c hc hka.symm) (h.below c hc b hb hkb)).trans
    (hT.bottleneck a.info c.info b.info)

theorem Sound.updated (hT : TreeSpeeds T cap) (h : g.Sound T cap) {i j k : Nat}
    (hk : k < g.cGraph.n) (hu : Updated i j k g g') : g'.Sound T cap := by
  refine h.of_better hu.better (fun a ha b hb hab => ?_) fun a ha b hb hab hflag => ?_
  · rw [hu.width _ _ (h.wf.index_lt ha) (h.wf.index_lt hb)]
    split <;> rename_i hij
    · rcases hij with ⟨rfl, rfl⟩ | ⟨rfl, rfl⟩
      · exact h.transition_le hT ha hb hab hk
      · rw [hT.symm]
        exact h.transition_le hT hb ha hab.symm hk
    · exact h.below a ha b hb hab
  · rw [hu.tested _ _ (h.wf.index_lt ha) (h.wf.index_lt hb)] at hflag
    rcases hflag with htested | hlimited
    · exact Or.inl (Or.inl htested)
    · rcases hu.limited _ _ (h.wf.index_lt ha) (h.wf.index_lt hb) hlimited with hold | ⟨hij, hmin⟩
      · exact Or.inl (Or.inr hold)
      · exact Or.inr (h.le_minSpeed hT ha hb hij hmin)

theorem Sound.updateSpeeds (hT : TreeSpeeds T cap) (h : g.Sound T cap) :
    Returns g.updateSpeeds fun g' => g'.Sound T cap ∧ Better g g' := by
  refine (updateSpeeds_inv h.wf.indexed (P := fun g' => g'.Sound T cap ∧ Better g g') ⟨h, Better.refl g⟩
    fun i j k g₁ g₂ _ _ hk _ hn hg₁ hu => ?_).mono fun g' hg' => hg'.2.2
  exact ⟨hg₁.1.updated hT (hn.symm ▸ hk) hu, hg₁.2.trans hu.better⟩

/-! ## Entries that become exact -/

/-- `g'` is `g` with the entry between `a` and `b` exact and tested. -/
structure Written (T : I → I → Nat) (a b : Node I) (d : TestData) (g g' : CGraph I) : Prop where
  nodes : g'.nodes = g.nodes
  size : g'.cGraph.n = g.cGraph.n
  entries : ∀ p q, p < g.cGraph.n → q < g.cGraph.n → g'.cGraph.entry p q =
    if SamePair p q a.index b.index then d else g.cGraph.entry p q
  speed : d.speed = T a.info b.info
  tested : d.isDirectlyTested = true

theorem Written.width {a b : Node I} {d : TestData} (h : Written T a b d g g') {p q : Nat}
    (hp : p < g.cGraph.n) (hq : q < g.cGraph.n) : g'.width p q =
      if SamePair p q a.index b.index then T a.info b.info else g.width p q := by
  rw [CGraph.width, h.entries p q hp hq]
  split
  · exact h.speed
  · rfl

theorem Written.better (hs : g.Sound T cap) {a b : Node I} {d : TestData} (ha : a ∈ g.nodes.elems)
    (hb : b ∈ g.nodes.elems) (h : Written T a b d g g') : Better g g' := by
  refine ⟨h.nodes, h.size, fun p q hp hq hpq => ?_, fun p q hp hq ht => ?_⟩
  · rw [h.width hp hq]
    split <;> rename_i hsame
    · rcases hsame with ⟨rfl, rfl⟩ | ⟨rfl, rfl⟩
      · exact hs.below a ha b hb hpq
      · rw [width_comm]
        exact hs.below a ha b hb hpq.symm
    · exact le_refl _
  · rw [h.entries p q hp hq]
    split
    · exact h.tested
    · exact ht

theorem Written.sound (hT : TreeSpeeds T cap) (hs : g.Sound T cap) {a b : Node I} {d : TestData}
    (ha : a ∈ g.nodes.elems) (hb : b ∈ g.nodes.elems) (h : Written T a b d g g') : g'.Sound T cap := by
  have hsame : ∀ c ∈ g.nodes.elems, ∀ e ∈ g.nodes.elems, SamePair c.index e.index a.index b.index →
      T a.info b.info = T c.info e.info := by
    rintro c hc e he (⟨hca, heb⟩ | ⟨hcb, hea⟩)
    · rw [g.nodes.eq_of_key_eq hc ha hca, g.nodes.eq_of_key_eq he hb heb]
    · rw [g.nodes.eq_of_key_eq hc hb hcb, g.nodes.eq_of_key_eq he ha hea, hT.symm]
  refine hs.of_better (h.better hs ha hb) (fun c hc e he hce => ?_) fun c hc e he hce hflag => ?_
  · rw [h.width (hs.wf.index_lt hc) (hs.wf.index_lt he)]
    split <;> rename_i hpair
    · exact (hsame c hc e he hpair).le
    · exact hs.below c hc e he hce
  · rw [h.entries _ _ (hs.wf.index_lt hc) (hs.wf.index_lt he)] at hflag
    rw [h.width (hs.wf.index_lt hc) (hs.wf.index_lt he)]
    by_cases hpair : SamePair c.index e.index a.index b.index
    · rw [if_pos hpair]
      exact Or.inr (hsame c hc e he hpair).ge
    · rw [if_neg hpair] at hflag
      exact Or.inl hflag

theorem Measured.written {a b : Node I} (h : Measured a.index b.index (T a.info b.info) g g') :
    Written T a b ⟨false, true, T a.info b.info⟩ g g' :=
  ⟨h.nodes, h.size, h.entries, rfl, rfl⟩

/-! ## The rule that spares a test -/

theorem shortcut_spec (hT : TreeSpeeds T cap) (hs : g.Sound T cap) {from_ to_ : Node I}
    (hfrom : from_ ∈ g.nodes.elems) (hto : to_ ∈ g.nodes.elems) {ks : List (Node I)}
    (hks : ∀ k ∈ ks, k ∈ g.nodes.elems) :
    Returns (shortcut from_ to_ ks g.cGraph) fun r => r = (g.cGraph, false) ∨
      (r.2 = true ∧ ∃ d, Written T from_ to_ d g ⟨r.1, g.nodes⟩) := by
  have hi := hs.wf.index_lt hfrom
  have hj := hs.wf.index_lt hto
  induction ks with
  | nil => exact ⟨_, rfl, Or.inl rfl⟩
  | cons k rest ih =>
    have ih := ih fun k hk => hks k (List.mem_cons_of_mem _ hk)
    have hk := hks k List.mem_cons_self
    have hkn := hs.wf.index_lt hk
    unfold shortcut
    split <;> rename_i hskip
    · exact ih
    rw [not_or] at hskip
    rw [SymMatrix.index_eq _ hi hkn, SymMatrix.index_eq _ hkn hj]
    simp only [bind_ok]
    split <;> rename_i hflags
    swap
    · exact ih
    simp only [Bool.and_eq_true, Bool.or_eq_true, Bool.not_eq_true'] at hflags
    have hfk := hs.exact from_ hfrom k hk (Ne.symm hskip.1) hflags.1.symm
    have hkt := hs.exact k hk to_ hto hskip.2 hflags.2.symm
    split <;> rename_i hne
    · exact ih
    have hmin : (if (g.cGraph.entry from_.index k.index).speed > (g.cGraph.entry k.index to_.index).speed
        then (g.cGraph.entry k.index to_.index).speed
        else (g.cGraph.entry from_.index k.index).speed) = T from_.info to_.info := by
      have htree := hT.eq_min (a := from_.info) (b := k.info) (c := to_.info)
        (by rw [← hfk, ← hkt]; exact hne)
      rw [← hfk, ← hkt] at htree
      rw [htree, CGraph.width, CGraph.width]
      split <;> omega
    rw [hmin]
    refine (SymMatrix.modify_spec g.cGraph hi hj _).bind fun m hm => ?_
    obtain ⟨hn, hm⟩ := hm
    refine (SymMatrix.modify_spec m (hn ▸ hi) (hn ▸ hj) _).bind fun m' hm' => ?_
    obtain ⟨hn', hm'⟩ := hm'
    rw [hn] at hn' hm'
    rw [returns_pure]
    refine Or.inr ⟨rfl, (m.entry from_.index to_.index).setDirectTested true, rfl, hn',
      fun p q hp hq => ?_, ?_, rfl⟩
    · rw [hm' p q hp hq, hm p q hp hq]
      split <;> rfl
    · rw [hm _ _ hi hj, if_pos (Or.inl ⟨rfl, rfl⟩)]
      rfl

/-! ## What is missing -/

def Known (T : I → I → Nat) (sufficientSpeed : Nat) (g : CGraph I) (a b : Node I) : Prop :=
  g.width a.index b.index = T a.info b.info ∨ sufficientSpeed ≤ g.width a.index b.index

theorem Known.mono {sufficientSpeed : Nat} {a b : Node I} (h : Known T sufficientSpeed g a b)
    (hs : g.Sound T cap) (hs' : g'.Sound T cap) (hb : Better g g') (ha : a ∈ g.nodes.elems)
    (hb' : b ∈ g.nodes.elems) (hab : a.index ≠ b.index) : Known T sufficientSpeed g' a b := by
  have hwidth := hb.width _ _ (hs.wf.index_lt ha) (hs.wf.index_lt hb') hab
  rcases h with h | h
  · have hbelow := hs'.below a (hb.nodes ▸ ha) b (hb.nodes ▸ hb') hab
    exact Or.inl (le_antisymm hbelow (h ▸ hwidth))
  · exact Or.inr (h.trans hwidth)

/-- The nodes before this round are known, or on the list. -/
structure Scan (T : I → I → Nat) (cap : I → Nat) (g : CGraph I) (me : Node I) (sufficientSpeed : Nat)
    (done : List (Node I)) (s : SymMatrix TestData × List (Node I)) : Prop where
  sound : (⟨s.1, g.nodes⟩ : CGraph I).Sound T cap
  better : Better g ⟨s.1, g.nodes⟩
  known : ∀ a ∈ done, me.index ≠ a.index → a ∈ s.2 ∨ Known T sufficientSpeed ⟨s.1, g.nodes⟩ me a
  missing : ∀ a ∈ s.2, a ∈ done ∧ me.index ≠ a.index ∧
    (s.1.entry me.index a.index).isDirectlyTested = false

/-- A test that is not needed: the speed is enough, or that of one of the two nodes. -/
theorem Sound.known_of_skip (hT : TreeSpeeds T cap) (hs : g.Sound T cap) {a b : Node I}
    (ha : a ∈ g.nodes.elems) (hb : b ∈ g.nodes.elems) (hab : a.index ≠ b.index)
    {sufficientSpeed : Nat} (hskip :
      ¬ ((!(g.cGraph.entry a.index b.index).isDirectlyTested &&
        decide ((g.cGraph.entry a.index b.index).speed < sufficientSpeed) &&
        decide ((g.cGraph.entry a.index b.index).speed < min a.speed b.speed)) = true)) :
    Known T sufficientSpeed g a b := by
  simp only [Bool.and_eq_true, Bool.not_eq_true', decide_eq_true_eq, not_and_or, not_lt,
    Bool.not_eq_false] at hskip
  rcases hskip with (htested | hsuff) | hcap
  · exact Or.inl (hs.exact a ha b hb hab (Or.inl htested))
  · exact Or.inr hsuff
  · refine Or.inl (le_antisymm (hs.below a ha b hb hab) ?_)
    rw [hs.speed a ha, hs.speed b hb] at hcap
    exact (hT.le_cap a.info b.info).trans hcap

theorem missingRound_spec (hT : TreeSpeeds T cap) {me to_ : Node I} {sufficientSpeed : Nat}
    {nodes done : List (Node I)} {s : SymMatrix TestData × List (Node I)}
    (hnodes : ∀ a ∈ nodes, a ∈ g.nodes.elems) (hme : me ∈ g.nodes.elems) (hto : to_ ∈ g.nodes.elems)
    (hdone : ∀ a ∈ done, a ∈ g.nodes.elems) (hnew : to_ ∉ done)
    (h : Scan T cap g me sufficientSpeed done s) :
    Returns (missingRound nodes me sufficientSpeed s to_)
      (Scan T cap g me sufficientSpeed (done ++ [to_])) := by
  obtain ⟨m, list⟩ := s
  have hold : ∀ {a : Node I}, a ∈ list → a ∈ done ++ [to_] := fun ha =>
    List.mem_append_left _ (h.missing _ ha).1
  have hi := h.sound.wf.index_lt hme
  have hj := h.sound.wf.index_lt hto
  unfold missingRound
  split <;> rename_i hself
  · refine (returns_pure _ _).mpr ⟨h.sound, h.better, fun a ha hne => ?_, fun a ha => ?_⟩
    · rcases List.mem_append.mp ha with ha | ha
      · exact h.known a ha hne
      · obtain rfl := List.mem_singleton.mp ha
        exact absurd hself hne
    · exact ⟨hold ha, (h.missing a ha).2⟩
  simp only
  rw [SymMatrix.index_eq m hi hj, bind_ok]
  split <;> rename_i hcond
  · refine (shortcut_spec hT h.sound hme hto hnodes).bind fun r hr => ?_
    obtain ⟨m', ignoreTest⟩ := r
    rcases hr with heq | ⟨rfl, d, hwritten⟩
    · -- No node tells the speed: the test goes on the list.
      cases heq
      simp only [Bool.false_eq_true, if_false]
      refine (returns_pure _ _).mpr ⟨h.sound, h.better, fun a ha hne => ?_, fun a ha => ?_⟩
      · rcases List.mem_append.mp ha with ha | ha
        · exact (h.known a ha hne).imp_left (List.mem_append_left _)
        · exact Or.inl (List.mem_append_right _ ha)
      · rcases List.mem_append.mp ha with ha | ha
        · exact ⟨hold ha, (h.missing a ha).2⟩
        · obtain rfl := List.mem_singleton.mp ha
          simp only [Bool.and_eq_true, Bool.not_eq_true'] at hcond
          exact ⟨List.mem_append_right _ ha, hself, hcond.1.1⟩
    · have hsound := hwritten.sound hT h.sound hme hto
      have hbetter := hwritten.better h.sound hme hto
      simp only [if_true]
      refine (returns_pure _ _).mpr ⟨hsound, h.better.trans hbetter, fun a ha hne => ?_,
        fun a ha => ⟨hold ha, (h.missing a ha).2.1, ?_⟩⟩
      · rcases List.mem_append.mp ha with ha | ha
        · exact (h.known a ha hne).imp_right fun hk =>
            hk.mono h.sound hsound hbetter hme (hdone a ha) hne
        · obtain rfl := List.mem_singleton.mp ha
          refine Or.inr (Or.inl ?_)
          rw [hwritten.width hi hj, if_pos (Or.inl ⟨rfl, rfl⟩)]
      · obtain ⟨hadone, hane, huntested⟩ := h.missing a ha
        have hag := hdone a hadone
        have hato : a.index ≠ to_.index := fun heq =>
          hnew (g.nodes.eq_of_key_eq hag hto heq ▸ hadone)
        rw [hwritten.entries _ _ hi (h.sound.wf.index_lt hag), if_neg]
        · exact huntested
        · rintro (⟨-, heq⟩ | ⟨-, heq⟩)
          · exact hato heq
          · exact hane heq.symm
  · have hknown := h.sound.known_of_skip hT hme hto hself hcond
    refine (returns_pure _ _).mpr ⟨h.sound, h.better, fun a ha hne => ?_, fun a ha => ?_⟩
    · rcases List.mem_append.mp ha with ha | ha
      · exact h.known a ha hne
      · obtain rfl := List.mem_singleton.mp ha
        exact Or.inr hknown
    · exact ⟨hold ha, (h.missing a ha).2⟩

theorem fastest_mem {l : List (Node I)} {a : Node I} (h : fastest l = some a) : a ∈ l := by
  cases l with
  | nil => cases h
  | cons n rest =>
    cases h
    suffices hfold : ∀ (rest : List (Node I)) (best : Node I),
        rest.foldl (fun best n => if best.speed ≤ n.speed then n else best) best ∈ best :: rest from
      hfold rest n
    intro rest
    induction rest with
    | nil => exact fun best => List.mem_cons_self
    | cons x rest ih =>
      intro best
      rw [List.foldl_cons]
      split
      · exact List.mem_cons_of_mem _ (ih x)
      · rcases List.mem_cons.mp (ih best) with heq | hmem
        · rw [heq]
          exact List.mem_cons_self
        · exact List.mem_cons_of_mem _ (List.mem_cons_of_mem _ hmem)

theorem fastest_eq_none {l : List (Node I)} (h : fastest l = none) : l = [] := by
  cases l with
  | nil => rfl
  | cons n rest => cases h

theorem findMissingFromMe_spec (it : Iter) (hT : TreeSpeeds T cap) (h : g.Sound T cap) {me : Node I}
    (hme : me ∈ g.nodes.elems) (sufficientSpeed : Nat) :
    Returns (g.findMissingFromMe it me sufficientSpeed) fun r =>
      r.1.Sound T cap ∧ Better g r.1 ∧
      (r.2 = none → ∀ a ∈ g.nodes.elems, me.index ≠ a.index → Known T sufficientSpeed r.1 me a) ∧
      ∀ other, r.2 = some other → other ∈ g.nodes.elems ∧ me.index ≠ other.index ∧
        (r.1.cGraph.entry me.index other.index).isDirectlyTested = false := by
  have hmem : ∀ a ∈ it.order g.nodes.elems, a ∈ g.nodes.elems := fun a => it.mem_order.mp
  have hnodup : (it.order g.nodes.elems).Nodup := (it.perm _).nodup_iff.mpr g.nodes.elems_nodup
  unfold findMissingFromMe
  refine (Returns.foldlM (Scan T cap g me sufficientSpeed)
    ⟨h, Better.refl g, by simp, by simp⟩ fun pre x post s hx hs => ?_).bind fun r hr => ?_
  · have hxs : x ∈ it.order g.nodes.elems := by rw [hx]; simp
    have hpre : ∀ a ∈ pre, a ∈ g.nodes.elems := fun a ha => hmem a (by rw [hx]; simp [ha])
    have hnew : x ∉ pre := by
      rw [hx] at hnodup
      exact fun hin => List.disjoint_of_nodup_append hnodup hin List.mem_cons_self
    exact missingRound_spec hT hmem hme (hmem x hxs) hpre hnew hs
  · obtain ⟨m, missing⟩ := r
    rw [returns_pure]
    refine ⟨hr.sound, hr.better, fun hnone a ha hne => ?_, fun other hother => ?_⟩
    · have hempty : missing = [] := fastest_eq_none hnone
      rcases hr.known a (it.mem_order.mpr ha) hne with hin | hknown
      · rw [show (m, missing).2 = [] from hempty] at hin
        exact absurd hin List.not_mem_nil
      · exact hknown
    · obtain ⟨hin, hne, huntested⟩ := hr.missing other (fastest_mem hother)
      exact ⟨hmem other hin, hne, huntested⟩

/-! ## One join -/

def measureBy (T : I → I → Nat) (myInfo : I) (other : Node I) : Run Nat :=
  pure (T myInfo other.info)

/-- Between two rounds: the tests that were made are of different nodes, and flagged. -/
structure Testing (T : I → I → Nat) (cap : I → Nat) (g : CGraph I) (me : Node I)
    (s : CGraph I × List (Node I)) : Prop where
  sound : s.1.Sound T cap
  better : Better g s.1
  nodup : s.2.Nodup
  tested : ∀ a ∈ s.2, a ∈ g.nodes.elems ∧ me.index ≠ a.index ∧
    (s.1.cGraph.entry me.index a.index).isDirectlyTested = true

theorem Testing.length_lt {me : Node I} {s : CGraph I × List (Node I)} (h : Testing T cap g me s)
    (hme : me ∈ g.nodes.elems) : s.2.length < g.size := by
  have hnodup : (me :: s.2).Nodup :=
    List.nodup_cons.mpr ⟨fun hin => (h.tested me hin).2.1 rfl, h.nodup⟩
  have hsub : me :: s.2 ⊆ g.nodes.elems := by
    intro a ha
    rcases List.mem_cons.mp ha with rfl | ha
    · exact hme
    · exact (h.tested a ha).1
  exact (List.subperm_of_subset hnodup hsub).length_le

/-- The table at the end of a join, and the tests it took. -/
structure Finished (T : I → I → Nat) (cap : I → Nat) (g : CGraph I) (me : Node I)
    (sufficientSpeed : Nat) (s : CGraph I × List (Node I)) : Prop where
  testing : Testing T cap g me s
  known : ∀ a ∈ g.nodes.elems, me.index ≠ a.index → Known T sufficientSpeed s.1 me a

theorem addLinkDirectTest_sound (hT : TreeSpeeds T cap) (h : g.Sound T cap) {a b : Node I}
    (ha : a ∈ g.nodes.elems) (hb : b ∈ g.nodes.elems) :
    Returns (g.addLinkDirectTest a b (T a.info b.info)) fun r => r.1.Sound T cap ∧ Better g r.1 ∧
      (r.1.cGraph.entry a.index b.index).isDirectlyTested = true := by
  have hspeed : T a.info b.info ≤ min a.speed b.speed := by
    rw [h.speed a ha, h.speed b hb]
    exact hT.le_cap a.info b.info
  refine addLinkDirectTest_spec (P := fun g' => g'.Sound T cap ∧ Better g g' ∧
    (g'.cGraph.entry a.index b.index).isDirectlyTested = true) h.wf.indexed (KeySet.contains_key ha)
    (KeySet.contains_key hb) hspeed fun g₁ hm => ?_
  have hwritten := hm.written
  have hi := h.wf.index_lt ha
  have hj := h.wf.index_lt hb
  refine ((hwritten.sound hT h ha hb).updateSpeeds hT).mono fun g' hg' => ?_
  refine ⟨hg'.1, (hwritten.better h ha hb).trans hg'.2, ?_⟩
  apply hg'.2.tested _ _ (hm.size.symm ▸ hi) (hm.size.symm ▸ hj)
  rw [hwritten.entries _ _ hi hj, if_pos (Or.inl ⟨rfl, rfl⟩)]

theorem completeRound_spec (its : Nat → Iter) (hT : TreeSpeeds T cap) {me : Node I}
    (hme : me ∈ g.nodes.elems) (sufficientSpeed : Nat) {s : CGraph I × List (Node I)}
    (h : Testing T cap g me s) :
    Returns (completeRound its (measureBy T me.info) me sufficientSpeed s)
      (Round (Testing T cap g me) (fun s => g.size - s.2.length)
        (Finished T cap g me sufficientSpeed) s) := by
  obtain ⟨g₁, tests⟩ := s
  have hme₁ : me ∈ g₁.nodes.elems := by
    rw [h.better.nodes]
    exact hme
  unfold completeRound
  refine (findMissingFromMe_spec (its tests.length) hT h.sound hme₁ sufficientSpeed).bind
    fun r hr => ?_
  obtain ⟨g₂, missing⟩ := r
  obtain ⟨hsound, hbetter, hnone, hsome⟩ := hr
  have htested : ∀ {g' : CGraph I}, Better g₂ g' → ∀ a ∈ tests, a ∈ g.nodes.elems ∧
      me.index ≠ a.index ∧ (g'.cGraph.entry me.index a.index).isDirectlyTested = true := by
    intro g' hg' a ha
    obtain ⟨hag, hne, hflag⟩ := h.tested a ha
    have ha₁ : a ∈ g₁.nodes.elems := h.better.nodes.symm ▸ hag
    exact ⟨hag, hne, (hbetter.trans hg').tested _ _ (h.sound.wf.index_lt hme₁)
      (h.sound.wf.index_lt ha₁) hflag⟩
  cases missing with
  | none =>
    refine (returns_pure _ _).mpr ⟨⟨hsound, h.better.trans hbetter, h.nodup, htested (Better.refl g₂)⟩,
      fun a ha hne => hnone rfl a (h.better.nodes.symm ▸ ha) hne⟩
  | some other =>
    obtain ⟨hother, hne, huntested⟩ := hsome other rfl
    have hme₂ : me ∈ g₂.nodes.elems := hbetter.nodes.symm ▸ hme₁
    refine (addLinkDirectTest_sound hT hsound hme₂ (hbetter.nodes.symm ▸ hother)).bind fun r hr => ?_
    obtain ⟨g₃, useful⟩ := r
    obtain ⟨hsound₃, hbetter₃, hflag⟩ := hr
    have hnew : other ∉ tests := by
      intro hin
      have := (htested (Better.refl g₂) other hin).2.2
      rw [show (g₂.cGraph.entry me.index other.index).isDirectlyTested = false from huntested] at this
      cases this
    have hnext : Testing T cap g me (g₃, tests ++ [other]) := by
      refine ⟨hsound₃, h.better.trans (hbetter.trans hbetter₃), ?_, fun a ha => ?_⟩
      · exact List.nodup_append.mpr ⟨h.nodup, List.nodup_singleton other, fun a ha b hb =>
          fun heq => hnew (List.mem_singleton.mp hb ▸ heq ▸ ha)⟩
      · rcases List.mem_append.mp ha with ha | ha
        · exact htested hbetter₃ a ha
        · obtain rfl := List.mem_singleton.mp ha
          exact ⟨h.better.nodes ▸ hother, hne, hflag⟩
    refine (returns_pure _ _).mpr ⟨hnext, ?_⟩
    have hlt := hnext.length_lt hme
    rw [List.length_append, List.length_singleton] at hlt
    show g.size - (tests ++ [other]).length < g.size - tests.length
    rw [List.length_append, List.length_singleton]
    omega

theorem Sound.added (h : g.Sound T cap) {node : Node I} (hnode : node.speed = cap node.info)
    (ha : Added g node g') : g'.Sound T cap := by
  have hflags : ∀ a ∈ g.nodes.elems, g'.cGraph.entry a.index node.index = TestData.default := by
    intro a hag
    rw [ha.index]
    exact ha.untested _ (h.wf.index_lt hag)
  have hold : ∀ a ∈ g.nodes.elems, ∀ b ∈ g.nodes.elems,
      g'.cGraph.entry a.index b.index = g.cGraph.entry a.index b.index := fun a ha' b hb =>
    ha.old _ _ (h.wf.index_lt ha') (h.wf.index_lt hb)
  refine ⟨ha.wf h.wf, fun a hag => ?_, fun a hag b hbg hab => ?_, fun a hag b hbg hab hflag => ?_⟩
  · rw [ha.nodes] at hag
    rcases List.mem_cons.mp hag with rfl | hag
    · exact hnode
    · exact h.speed a hag
  · rw [ha.nodes] at hag hbg
    rcases List.mem_cons.mp hag with rfl | hag' <;> rcases List.mem_cons.mp hbg with rfl | hbg'
    · exact absurd rfl hab
    · rw [width_comm, width, hflags b hbg']
      exact Nat.zero_le _
    · rw [width, hflags a hag']
      exact Nat.zero_le _
    · rw [width, hold a hag' b hbg']
      exact h.below a hag' b hbg' hab
  · rw [ha.nodes] at hag hbg
    rcases List.mem_cons.mp hag with rfl | hag' <;> rcases List.mem_cons.mp hbg with rfl | hbg'
    · exact absurd rfl hab
    · rw [g'.cGraph.entry_comm, hflags b hbg'] at hflag
      exact absurd hflag (by decide)
    · rw [hflags a hag'] at hflag
      exact absurd hflag (by decide)
    · rw [hold a hag' b hbg'] at hflag
      rw [width, hold a hag' b hbg']
      exact h.exact a hag' b hbg' hab hflag

end Exact

/-! ## Every run of joins and removals -/

def Complete (T : I → I → Nat) (sufficientSpeed : Nat) (g : CGraph I) : Prop :=
  ∀ a ∈ g.nodes.elems, ∀ b ∈ g.nodes.elems, a.index ≠ b.index → Known T sufficientSpeed g a b

theorem Known.symm {T : I → I → Nat} {cap : I → Nat} (hT : TreeSpeeds T cap) {sufficientSpeed : Nat}
    {g : CGraph I} {a b : Node I} (h : Known T sufficientSpeed g a b) :
    Known T sufficientSpeed g b a := by
  unfold Known at h ⊢
  rw [g.width_comm, hT.symm]
  exact h

section Join

variable {T : I → I → Nat} {cap : I → Nat} {sufficientSpeed : Nat} {g g' : CGraph I}

/-- One round of tests for every other node is enough. -/
theorem completeGraph_spec [DecidableEq I] (its : Nat → Iter) (hT : TreeSpeeds T cap) (h : g.Sound T cap)
    (hc : g.Complete T sufficientSpeed) (info : I) {fuel : Nat} (hfuel : g.size + 1 < fuel) :
    Returns (completeGraph fuel its (measureBy T info) (cap info) info sufficientSpeed g) fun r =>
      r.2.1.Sound T cap ∧ r.2.1.Complete T sufficientSpeed ∧ r.2.2.Nodup ∧ r.1 ∉ r.2.2 := by
  unfold completeGraph
  refine (addNode_spec (its 0) h.wf.indexed (cap info) info).bind fun r hr => ?_
  obtain ⟨g₁, me⟩ := r
  obtain ⟨hme, rfl, hadded⟩ := hr
  have hsound : g₁.Sound T cap := by
    rcases hadded with rfl | ⟨hspeed, hadded⟩
    · exact h
    · exact h.added hspeed hadded
  have hsize : g₁.size ≤ g.size + 1 := by
    rcases hadded with rfl | ⟨-, hadded⟩
    · exact Nat.le_succ _
    · rw [size, KeySet.len, hadded.nodes, List.length_cons]
      exact le_refl _
  -- Two nodes of which none is the new one know their speed from before.
  have hold : ∀ a ∈ g₁.nodes.elems, ∀ b ∈ g₁.nodes.elems, a.index ≠ b.index → a.index ≠ me.index →
      b.index ≠ me.index → Known T sufficientSpeed g₁ a b := by
    intro a ha b hb hab hame hbme
    rcases hadded with rfl | ⟨-, hadded⟩
    · exact hc a ha b hb hab
    · rw [hadded.nodes] at ha hb
      have ha := (List.mem_cons.mp ha).resolve_left fun heq => hame (congrArg Node.index heq)
      have hb := (List.mem_cons.mp hb).resolve_left fun heq => hbme (congrArg Node.index heq)
      have hknown := hc a ha b hb hab
      unfold Known at hknown ⊢
      rw [width, hadded.old _ _ (h.wf.index_lt ha) (h.wf.index_lt hb)]
      exact hknown
  refine (Returns.loop (Testing T cap g₁ me) (fun s => g₁.size - s.2.length)
    ⟨hsound, Better.refl g₁, List.nodup_nil, by simp⟩ (by simp only [List.length_nil]; omega)
    fun s hs => completeRound_spec its hT hme sufficientSpeed hs).bind fun r hr => ?_
  obtain ⟨g₂, tests⟩ := r
  obtain ⟨⟨hsound₂, hbetter, hnodup, htested⟩, hknown⟩ := hr
  rw [returns_pure]
  refine ⟨hsound₂, fun a ha b hb hab => ?_, hnodup, fun hin => (htested me hin).2.1 rfl⟩
  replace ha : a ∈ g₁.nodes.elems := hbetter.nodes ▸ ha
  replace hb : b ∈ g₁.nodes.elems := hbetter.nodes ▸ hb
  by_cases hame : a.index = me.index
  · obtain rfl := g₁.nodes.eq_of_key_eq ha hme hame
    exact hknown b hb hab
  by_cases hbme : b.index = me.index
  · obtain rfl := g₁.nodes.eq_of_key_eq hb hme hbme
    exact (hknown a ha hab.symm).symm hT
  exact (hold a ha b hb hab hame hbme).mono hsound hsound₂ hbetter ha hb hab

theorem Removed.exists_old {node : Node I} (h : Removed g node g') {a : Node I}
    (ha : a ∈ g'.nodes.elems) : ∃ b ∈ g.nodes.elems, a.info = b.info ∧ a.speed = b.speed ∧
      SymMatrix.shift node.index a.index = b.index := by
  obtain ⟨b, hb, rfl⟩ := List.mem_map.mp (h.nodes.mem_iff.mp ha)
  rw [List.mem_filter, decide_eq_true_eq] at hb
  refine ⟨b, hb.1, lower_info _ b, lower_speed _ b, ?_⟩
  have hne := hb.2
  rw [lower_index]
  unfold SymMatrix.shift
  split <;> split <;> omega

theorem Removed.entry {node : Node I} (h : Removed g node g') (hidx : g.Indexed) {a b : Node I}
    (ha : a ∈ g'.nodes.elems) (hb : b ∈ g'.nodes.elems) :
    g'.cGraph.entry a.index b.index = g.cGraph.entry (SymMatrix.shift node.index a.index)
      (SymMatrix.shift node.index b.index) :=
  h.entries _ _ (((h.indexed hidx).index_lt ha).trans_eq h.size)
    (((h.indexed hidx).index_lt hb).trans_eq h.size)

theorem Sound.removed {node : Node I} (h : g.Sound T cap) (hr : Removed g node g') :
    g'.Sound T cap := by
  have hne : ∀ {i j : Nat}, i ≠ j → SymMatrix.shift node.index i ≠ SymMatrix.shift node.index j := by
    intro i j hij
    unfold SymMatrix.shift
    split <;> split <;> omega
  refine ⟨hr.wf h.wf, fun a ha => ?_, fun a ha b hb hab => ?_, fun a ha b hb hab hflag => ?_⟩
  · obtain ⟨a', ha', hinfo, hspeed, -⟩ := hr.exists_old ha
    rw [hinfo, hspeed]
    exact h.speed a' ha'
  · have hab' := hne hab
    rw [width, hr.entry h.wf.indexed ha hb]
    obtain ⟨a', ha', hinfoa, -, hia⟩ := hr.exists_old ha
    obtain ⟨b', hb', hinfob, -, hib⟩ := hr.exists_old hb
    rw [hinfoa, hinfob, hia, hib]
    exact h.below a' ha' b' hb' (hia ▸ hib ▸ hab')
  · have hab' := hne hab
    rw [hr.entry h.wf.indexed ha hb] at hflag
    rw [width, hr.entry h.wf.indexed ha hb]
    obtain ⟨a', ha', hinfoa, -, hia⟩ := hr.exists_old ha
    obtain ⟨b', hb', hinfob, -, hib⟩ := hr.exists_old hb
    rw [hia, hib] at hflag
    rw [hinfoa, hinfob, hia, hib]
    exact h.exact a' ha' b' hb' (hia ▸ hib ▸ hab') hflag

theorem Complete.removed {node : Node I} (hc : g.Complete T sufficientSpeed) (hwf : g.Wf)
    (hr : Removed g node g') : g'.Complete T sufficientSpeed := by
  intro a ha b hb hab
  have hab' : SymMatrix.shift node.index a.index ≠ SymMatrix.shift node.index b.index := by
    unfold SymMatrix.shift
    split <;> split <;> omega
  unfold Known
  rw [width, hr.entry hwf.indexed ha hb]
  obtain ⟨a', ha', hinfoa, -, hia⟩ := hr.exists_old ha
  obtain ⟨b', hb', hinfob, -, hib⟩ := hr.exists_old hb
  rw [hinfoa, hinfob, hia, hib]
  exact hc a' ha' b' hb' (hia ▸ hib ▸ hab')

end Join

inductive Joined [DecidableEq I] (T : I → I → Nat) (cap : I → Nat) (sufficientSpeed : Nat) :
    CGraph I → Prop
  | new : Joined T cap sufficientSpeed CGraph.new
  | join {g g' : CGraph I} {me : Node I} {tests : List (Node I)} (fuel : Nat) (its : Nat → Iter)
      (info : I) (h : Joined T cap sufficientSpeed g)
      (hg' : completeGraph fuel its (measureBy T info) (cap info) info sufficientSpeed g =
        .ok (me, g', tests)) : Joined T cap sufficientSpeed g'
  | removeOneBy {g g' : CGraph I} (it : Iter) (predicate : Node I → Bool)
      (h : Joined T cap sufficientSpeed g) (hg' : g.removeOneBy it predicate = .ok g') :
      Joined T cap sufficientSpeed g'

theorem completeGraph_mono [DecidableEq I] {fuel fuel' : Nat} {its : Nat → Iter}
    {measure : Node I → Run Nat} {mySpeed sufficientSpeed : Nat} {myInfo : I} {g : CGraph I}
    {r : Node I × CGraph I × List (Node I)}
    (h : completeGraph fuel its measure mySpeed myInfo sufficientSpeed g = .ok r)
    (hle : fuel ≤ fuel') :
    completeGraph fuel' its measure mySpeed myInfo sufficientSpeed g = .ok r := by
  unfold completeGraph at h ⊢
  obtain ⟨⟨g₁, me⟩, hadd, h⟩ := of_bind_eq_ok h
  obtain ⟨⟨g₂, tests⟩, hloop, h⟩ := of_bind_eq_ok h
  rw [hadd, bind_ok]
  simp only
  rw [loop_mono hloop hle, bind_ok]
  exact h

theorem Joined.sound [DecidableEq I] {T : I → I → Nat} {cap : I → Nat} {sufficientSpeed : Nat}
    {g : CGraph I} (hT : TreeSpeeds T cap) (h : Joined T cap sufficientSpeed g) :
    g.Sound T cap ∧ g.Complete T sufficientSpeed := by
  induction h with
  | new => exact ⟨⟨Wf.new, by simp [CGraph.new], by simp [CGraph.new], by simp [CGraph.new]⟩,
      by simp [Complete, CGraph.new]⟩
  | @join g g' me tests fuel its info _ hg' ih =>
    have hmono := completeGraph_mono hg' (Nat.le_add_right fuel (g.size + 2))
    have hspec := completeGraph_spec its hT ih.1 ih.2 info (show g.size + 1 < fuel + (g.size + 2) by omega)
    obtain ⟨hsound, hcomplete, -⟩ := hspec.of_eq hmono
    exact ⟨hsound, hcomplete⟩
  | @removeOneBy g g' it predicate _ hg' ih =>
    obtain ⟨node, -, hremoved⟩ := (removeOneBy_spec it ih.1.wf.indexed (removeOneBy_ok hg')).of_eq hg'
    exact ⟨ih.1.removed hremoved, ih.2.removed ih.1.wf hremoved⟩

/-- Every join ends, with at most one test of each other node, and the speed between any two
nodes is right or sufficient. When only the maximum is sufficient, it is right. -/
theorem table_exact [DecidableEq I] {T : I → I → Nat} {cap : I → Nat} {sufficientSpeed : Nat}
    {g : CGraph I} (hT : TreeSpeeds T cap) (h : Joined T cap sufficientSpeed g) :
    (∀ (its : Nat → Iter) (info : I) (fuel : Nat), g.size + 1 < fuel →
      Returns (completeGraph fuel its (measureBy T info) (cap info) info sufficientSpeed g)
        fun r => r.2.2.Nodup ∧ r.1 ∉ r.2.2) ∧
    (∀ a ∈ g.nodes.elems, ∀ b ∈ g.nodes.elems, a ≠ b →
      g.width a.index b.index ≤ T a.info b.info ∧
      (g.width a.index b.index = T a.info b.info ∨ sufficientSpeed ≤ g.width a.index b.index)) ∧
    (sufficientSpeed = usizeMax → (∀ a, cap a ≤ usizeMax) →
      ∀ a ∈ g.nodes.elems, ∀ b ∈ g.nodes.elems, a ≠ b →
        g.width a.index b.index = T a.info b.info) := by
  obtain ⟨hsound, hcomplete⟩ := h.sound hT
  have hindex : ∀ {a b : Node I}, a ∈ g.nodes.elems → b ∈ g.nodes.elems → a ≠ b →
      a.index ≠ b.index := fun ha hb hab heq => hab (g.nodes.eq_of_key_eq ha hb heq)
  refine ⟨fun its info fuel hfuel => ?_, fun a ha b hb hab => ?_, fun hmax hcap a ha b hb hab => ?_⟩
  · exact (completeGraph_spec its hT hsound hcomplete info hfuel).mono fun r hr => hr.2.2
  · exact ⟨hsound.below a ha b hb (hindex ha hb hab), hcomplete a ha b hb (hindex ha hb hab)⟩
  · have hbelow := hsound.below a ha b hb (hindex ha hb hab)
    rcases hcomplete a ha b hb (hindex ha hb hab) with heq | hsuff
    · exact heq
    · have hle := (hT.le_cap a.info b.info).trans (min_le_left _ _)
      exact le_antisymm hbelow (hle.trans ((hcap a.info).trans (hmax ▸ hsuff)))

/-! ## Three nodes join -/

def demoCap (info : Nat) : Nat := min (10 * info) 1000

def demoSpeed (a b : Nat) : Nat := min (demoCap a) (demoCap b)

theorem demoSpeed_tree : TreeSpeeds demoSpeed demoCap := by
  refine ⟨fun a b => Nat.min_comm _ _, fun a b => Nat.le_refl _, fun a b c => ?_⟩
  unfold demoSpeed
  omega

def demoJoin (info : Nat) (g : CGraph Nat) : Run (Node Nat × CGraph Nat × List (Node Nat)) :=
  completeGraph 5 (fun _ => Iter.inOrder) (measureBy demoSpeed info) (demoCap info) info usizeMax g

/-- The last of three nodes is tested with the first one only. -/
theorem table_exact_demo : ∃ g : CGraph Nat, Joined demoSpeed demoCap usizeMax g ∧
    Returns (demoJoin 8 g) fun r => r.2.2.map Node.info = [9] ∧
      r.2.1.nodes.elems.map Node.info = [8, 7, 9] ∧
      (∀ a ∈ r.2.1.nodes.elems, ∀ b ∈ r.2.1.nodes.elems, a ≠ b →
        r.2.1.width a.index b.index = demoSpeed a.info b.info) ∧
      Returns (demoJoin 10 r.2.1) fun r => r.2.2.Nodup ∧ r.1 ∉ r.2.2 := by
  obtain ⟨r₁, h₁, r₂, h₂, r₃, h₃, hnodes, htests, hsize⟩ : Returns (demoJoin 9 CGraph.new) fun r₁ =>
      Returns (demoJoin 7 r₁.2.1) fun r₂ => Returns (demoJoin 8 r₂.2.1) fun r₃ =>
        r₃.2.1.nodes.elems.map Node.info = [8, 7, 9] ∧ r₃.2.2.map Node.info = [9] ∧ r₃.2.1.size = 3 := by
    decide +kernel
  have htwo : Joined demoSpeed demoCap usizeMax r₂.2.1 := .join 5 _ 7 (.join 5 _ 9 .new h₁) h₂
  have hcap : ∀ a, demoCap a ≤ usizeMax := fun a => (Nat.min_le_right _ _).trans (by decide)
  have hexact := table_exact demoSpeed_tree (.join 5 _ 8 htwo h₃)
  exact ⟨r₂.2.1, htwo, r₃, h₃, htests, hnodes, hexact.2.2 rfl hcap, hexact.1 _ 10 5 (by rw [hsize]; decide)⟩

end CGraph

end Cgraph

end Kollaps
