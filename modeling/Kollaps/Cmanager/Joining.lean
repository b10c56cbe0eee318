import Kollaps.Cmanager.Steps

/-!
# The join lock

`adding_new_node` is set when the leader answers `Accepted`, and cleared by the last message
of the join. A `Stage` says how far the one join has come that holds the lock.
-/

namespace Kollaps

open Run Act Cgraph

namespace Cmanager

inductive Stage where
  | free
  /-- `Accepted` was sent to this socket, and was not heard yet. -/
  | answered (b : Binding)
  | accepted (n : ClusterNodeInfo)
  | asking (n : ClusterNodeInfo)
  | sending (n : ClusterNodeInfo) (graph : WCGraph)
  | completing (n : ClusterNodeInfo) (graph : WCGraph)
  /-- The last message of the join is on its way. -/
  | leaving (n : ClusterNodeInfo) (event : Event)

namespace Stage

def inside : Stage → Option ClusterNodeInfo
  | accepted n | asking n | sending n _ | completing n _ => some n
  | _ => none

/-- The copy of the graph that is out, and the node that has it. -/
def copy : Stage → Option (ClusterNodeInfo × WCGraph)
  | sending n graph | completing n graph => some (n, graph)
  | leaving n (.cGraphUpdate graph) => some (n, graph)
  | _ => none

def connections : Stage → List (ClusterNodeInfo × Event)
  | asking n => [(n, .cGraphGet)]
  | leaving n event => [(n, event)]
  | _ => []

def answers : Stage → List (ClusterNodeInfo × Event)
  | sending n graph => [(n, .cGraphSend graph)]
  | _ => []

def Fits (w : World) : Stage → Prop
  | accepted n => ∃ leader id, w.phase n = .accepted leader id
  | asking n | sending n _ => ∃ id, w.phase n = .asked id
  | completing n graph => (∃ id, w.phase n = .completing id) ∧ (w.peers n).ctrl.cgraph = graph
  | leaving _ event => event.isLast = true
  | _ => True

end Stage

/-- The messages in flight, and the phases of the nodes, are those of the stage. -/
structure Lock (w : World) (s : Stage) : Prop where
  leads : w.leader.isLeader = true
  flag : w.leader.addingNewNode = true ↔ s ≠ .free
  fits : s.Fits w
  inside : ∀ n, (w.phase n).isInside = true → s.inside = some n
  connections : w.connections = s.connections
  answers : w.answers = s.answers
  live : ∀ b leader id, ⟨b, .cjqResponse (.accepted leader id)⟩ ∈ w.datagrams →
    w.phase b.node = .pending b.request → s = .answered b
  fresh : ∀ d ∈ w.datagrams, d.binding.request < w.nextRequest
  pending : ∀ n r, w.phase n = .pending r → r < w.nextRequest
  infos : ∀ n, (w.peers n).ctrl.myInfo = n

namespace World

theorem peers_setPeer (w : World) (n m : ClusterNodeInfo) (p : Peer) :
    (w.setPeer n p).peers m = if m = n then p else w.peers m := by
  simp only [setPeer, Function.update_apply]

theorem phase_setPeer (w : World) (n m : ClusterNodeInfo) (p : Peer) :
    (w.setPeer n p).phase m = if m = n then p.phase else w.phase m := by
  rw [phase, peers_setPeer]
  split <;> rfl

theorem phase_setPhase (w : World) (n m : ClusterNodeInfo) (p : Phase) :
    (w.setPhase n p).phase m = if m = n then p else w.phase m := phase_setPeer w n m _

end World

namespace Lock

variable {w : World} {s : Stage}

theorem joining (h : Lock w s) : ∀ p ∈ w.connections, p.2.isJoining := by
  intro p hp
  rw [h.connections] at hp
  have hfits := h.fits
  cases s <;> simp [Stage.connections] at hp
  · rw [hp]
    exact Or.inl rfl
  · rw [hp]
    exact Or.inr hfits

theorem fits_of_outside {w' : World} (h : Lock w s) {n : ClusterNodeInfo}
    (hn : (w.phase n).isInside = false) (hsame : ∀ m, m ≠ n → w'.peers m = w.peers m) :
    s.Fits w' := by
  have hphase : ∀ {m : ClusterNodeInfo}, m ≠ n → w'.phase m = w.phase m := fun hm =>
    congrArg Peer.phase (hsame _ hm)
  have hfits := h.fits
  have hne : ∀ {m : ClusterNodeInfo} {p : Phase}, w.phase m = p → p.isInside = true → m ≠ n := by
    rintro m p hm hp rfl
    rw [hm, hp] at hn
    cases hn
  cases s with
  | accepted m =>
    obtain ⟨leader, id, hm⟩ := hfits
    exact ⟨leader, id, (hphase (hne hm rfl)).trans hm⟩
  | asking m | sending m _ =>
    obtain ⟨id, hm⟩ := hfits
    exact ⟨id, (hphase (hne hm rfl)).trans hm⟩
  | completing m graph =>
    obtain ⟨⟨id, hm⟩, hgraph⟩ := hfits
    refine ⟨⟨id, (hphase (hne hm rfl)).trans hm⟩, ?_⟩
    rw [hsame m (hne hm rfl)]
    exact hgraph
  | leaving m event => exact hfits
  | free | answered b => trivial

/-! ## Steps that leave the stage -/

theorem request (h : Lock w s) {n : ClusterNodeInfo} (hidle : (w.phase n).isIdle = true)
    {ctrl : Ctrl} (hinfo : ctrl.myInfo = n) (k : Nat) :
    Lock (w.sendClusterJoiningRequest n ctrl k) s := by
  have hpeers : ∀ m, (w.sendClusterJoiningRequest n ctrl k).peers m =
      if m = n then ⟨ctrl, k, .pending w.nextRequest⟩ else w.peers m := fun m => w.peers_setPeer n m _
  have hphase : ∀ m, (w.sendClusterJoiningRequest n ctrl k).phase m =
      if m = n then .pending w.nextRequest else w.phase m := fun m => w.phase_setPeer n m _
  have hout : (w.phase n).isInside = false := by
    cases hp : w.phase n <;> simp [hp, Phase.isIdle] at hidle <;> rfl
  refine ⟨h.leads, h.flag, ?_, fun m hm => ?_, h.connections, h.answers, ?_, fun d hd => ?_, ?_,
    fun m => ?_⟩
  · exact h.fits_of_outside hout fun m hm => by rw [hpeers, if_neg hm]
  · rw [hphase] at hm
    split at hm
    · cases hm
    · exact h.inside m hm
  · intro b leader id hb hpending
    rcases List.mem_append.mp hb with hb | hb
    · rw [hphase] at hpending
      split at hpending
      · -- A new socket has no answer yet.
        have := h.fresh _ hb
        simp only [Phase.pending.injEq] at hpending
        simp only at this
        omega
      · exact h.live b leader id hb hpending
    · simp at hb
  · rcases List.mem_append.mp hd with hd | hd
    · exact Nat.lt_succ_of_lt (h.fresh d hd)
    · rw [List.mem_singleton.mp hd]
      exact Nat.lt_succ_self _
  · intro m r hm
    rw [hphase] at hm
    split at hm
    · simp only [Phase.pending.injEq] at hm
      exact hm ▸ Nat.lt_succ_self _
    · exact Nat.lt_succ_of_lt (h.pending m r hm)
  · rw [hpeers]
    split <;> rename_i hm
    · rw [hm]
      exact hinfo
    · exact h.infos m

theorem rest (h : Lock w s) {n : ClusterNodeInfo} (hn : (w.phase n).isInside = false) {p : Peer}
    (hp : p.phase.isIdle = true) (hinfo : p.ctrl.myInfo = n) : Lock (w.setPeer n p) s := by
  have hidle : ∀ {r}, p.phase ≠ .pending r := by
    intro r hr
    rw [hr] at hp
    cases hp
  have hout : p.phase.isInside = false := by
    cases hq : p.phase <;> simp [hq, Phase.isIdle] at hp <;> rfl
  refine ⟨h.leads, h.flag, ?_, fun m hm => ?_, h.connections, h.answers, ?_, h.fresh, ?_,
    fun m => ?_⟩
  · exact h.fits_of_outside hn fun m hm => by rw [w.peers_setPeer, if_neg hm]
  · rw [w.phase_setPeer] at hm
    split at hm
    · rw [hout] at hm
      cases hm
    · exact h.inside m hm
  · intro b leader id hb hpending
    rw [w.phase_setPeer] at hpending
    split at hpending
    · exact absurd hpending hidle
    · exact h.live b leader id hb hpending
  · intro m r hm
    rw [w.phase_setPeer] at hm
    split at hm
    · exact absurd hm hidle
    · exact h.pending m r hm
  · rw [w.peers_setPeer]
    split <;> rename_i hm
    · rw [hm]
      exact hinfo
    · exact h.infos m

theorem datagrams (h : Lock w s) {ds : List Datagram} (hds : ∀ d ∈ ds, d ∈ w.datagrams ∨
    (d.binding.request < w.nextRequest ∧ ∀ leader id, d.event ≠ .cjqResponse (.accepted leader id))) :
    Lock { w with datagrams := ds } s := by
  refine ⟨h.leads, h.flag, ?_, h.inside, h.connections, h.answers, ?_, fun d hd => ?_, h.pending,
    h.infos⟩
  · have hfits := h.fits
    cases s <;> exact hfits
  · intro b leader id hb hpending
    rcases hds _ hb with hold | ⟨-, hnot⟩
    · exact h.live b leader id hold hpending
    · exact absurd rfl (hnot leader id)
  · exact (hds d hd).elim (h.fresh d) And.left

theorem leader (h : Lock w s) {c : Ctrl} (hleads : c.isLeader = w.leader.isLeader)
    (hflag : c.addingNewNode = w.leader.addingNewNode) : Lock { w with leader := c } s := by
  refine ⟨hleads.trans h.leads, ?_, ?_, h.inside, h.connections, h.answers, h.live, h.fresh, h.pending,
    h.infos⟩
  · rw [hflag]
    exact h.flag
  · have hfits := h.fits
    cases s <;> exact hfits

/-! ## Steps to the next stage -/

theorem free_of_flag (h : Lock w s) (hflag : w.leader.addingNewNode = false) : s = .free := by
  by_contra hne
  rw [h.flag.mpr hne] at hflag
  cases hflag

/-- The leader accepts a request: from now on one answer is live, the one it sends. -/
theorem accept (h : Lock w .free) {i : Nat} {b : Binding} {info : ClusterNodeInfo} (misses : MissMap)
    (id : Uuid) (hd : w.datagrams[i]? = some ⟨b, .cjqRequest info⟩) :
    Lock { w with
      leader := { w.leader with heartbeatMisses := misses, addingNewNode := true }
      datagrams := w.datagrams.eraseIdx i ++
        [⟨b, .cjqResponse (.accepted w.leader.myInfo id)⟩] } (.answered b) := by
  refine ⟨h.leads, by simp, trivial, fun n hn => ?_, h.connections, h.answers, ?_, fun d hd' => ?_,
    h.pending, h.infos⟩
  · exact absurd (h.inside n hn) (by simp [Stage.inside])
  · intro b' leader id' hb' hpending
    rcases List.mem_append.mp hb' with hb' | hb'
    · exact absurd (h.live b' leader id' (List.mem_of_mem_eraseIdx hb') hpending) (by simp)
    · simp only [List.mem_singleton, Datagram.mk.injEq] at hb'
      rw [hb'.1]
  · rcases List.mem_append.mp hd' with hd' | hd'
    · exact h.fresh d (List.mem_of_mem_eraseIdx hd')
    · rw [List.mem_singleton.mp hd']
      exact h.fresh ⟨b, .cjqRequest info⟩ (List.mem_of_getElem? hd)

theorem hearAccepted (h : Lock w s) {i k : Nat} {b : Binding} {leader : ClusterNodeInfo} {id : Uuid}
    {ctrl : Ctrl} (hd : w.datagrams[i]? = some ⟨b, .cjqResponse (.accepted leader id)⟩)
    (hinfo : ctrl.myInfo = b.node) (hphase : w.phase b.node = .pending b.request) : s = .answered b ∧
    Lock { w.setPeer b.node ⟨ctrl, k, .accepted leader id⟩ with datagrams := w.datagrams.eraseIdx i }
      (.accepted b.node) := by
  obtain rfl := h.live b leader id (List.mem_of_getElem? hd) hphase
  have hnew := fun m => w.phase_setPeer b.node m ⟨ctrl, k, .accepted leader id⟩
  refine ⟨rfl, h.leads, ?_, ⟨leader, id, ?_⟩, fun n hn => ?_, h.connections, h.answers, ?_,
    fun d hd' => ?_, ?_, fun m => ?_⟩
  · exact iff_of_true (h.flag.mpr (by simp)) (by simp)
  · exact (hnew b.node).trans (if_pos rfl)
  · have hn : ((w.setPeer b.node ⟨ctrl, k, .accepted leader id⟩).phase n).isInside = true := hn
    rw [hnew] at hn
    split at hn <;> rename_i heq
    · rw [heq]
      rfl
    · exact absurd (h.inside n hn) (by simp [Stage.inside])
  · intro b' leader' id' hb' hpending
    have hpending : (w.setPeer b.node ⟨ctrl, k, .accepted leader id⟩).phase b'.node =
      .pending b'.request := hpending
    rw [hnew] at hpending
    split at hpending <;> rename_i heq
    · cases hpending
    · cases h.live b' leader' id' (List.mem_of_mem_eraseIdx hb') hpending
      exact absurd rfl heq
  · exact h.fresh d (List.mem_of_mem_eraseIdx hd')
  · intro n r hr
    have hr : (w.setPeer b.node ⟨ctrl, k, .accepted leader id⟩).phase n = .pending r := hr
    rw [hnew] at hr
    split at hr
    · cases hr
    · exact h.pending n r hr
  · show ((w.setPeer b.node ⟨ctrl, k, .accepted leader id⟩).peers m).ctrl.myInfo = m
    rw [w.peers_setPeer]
    split <;> rename_i hm
    · rw [hm]
      exact hinfo
    · exact h.infos m

theorem proceed (h : Lock w s) {n : ClusterNodeInfo} (hn : (w.phase n).isInside = true) {p : Peer}
    {w' : World} {s' : Stage} (hpeers : w'.peers = (w.setPeer n p).peers)
    (hleader : w'.leader = w.leader) (hdatagrams : w'.datagrams = w.datagrams)
    (hnext : w'.nextRequest = w.nextRequest) (hidle : ∀ r, p.phase ≠ .pending r)
    (hinfo : p.ctrl.myInfo = n)
    (hs' : s' ≠ .free) (hfits : s'.Fits w')
    (hinside : s'.inside = if p.phase.isInside then some n else none)
    (hconnections : w'.connections = s'.connections) (hanswers : w'.answers = s'.answers) :
    Lock w' s' := by
  have hs := h.inside n hn
  have hphase : ∀ m, w'.phase m = if m = n then p.phase else w.phase m := by
    intro m
    rw [World.phase, hpeers]
    exact w.phase_setPeer n m p
  refine ⟨hleader ▸ h.leads, ?_, hfits, fun m hm => ?_, hconnections, hanswers, ?_, ?_, ?_,
    fun m => ?_⟩
  · rw [hleader, h.flag]
    refine ⟨fun _ => hs', ?_⟩
    rintro - rfl
    cases hs
  · rw [hphase] at hm
    split at hm <;> rename_i heq
    · rw [hinside, if_pos hm, heq]
    · have hother := h.inside m hm
      rw [hs] at hother
      exact absurd (Option.some.inj hother).symm heq
  · intro b leader id hb hpending
    rw [hdatagrams] at hb
    rw [hphase] at hpending
    split at hpending
    · exact absurd hpending (hidle _)
    · rw [h.live b leader id hb hpending] at hs
      cases hs
  · rw [hdatagrams, hnext]
    exact h.fresh
  · intro m r hr
    rw [hphase] at hr
    rw [hnext]
    split at hr
    · exact absurd hr (hidle _)
    · exact h.pending m r hr
  · rw [hpeers, w.peers_setPeer]
    split <;> rename_i hm
    · rw [hm]
      exact hinfo
    · exact h.infos m

theorem last (h : Lock w s) {i : Nat} {n : ClusterNodeInfo} {event : Event} {c : Ctrl}
    (hi : w.connections[i]? = some (n, event)) (hlast : event.isLast = true)
    (hleads : c.isLeader = w.leader.isLeader) (hflag : c.addingNewNode = false) :
    s = .leaving n event ∧
      Lock { w with leader := c, connections := w.connections.eraseIdx i } .free := by
  have hs : s = .leaving n event ∧ i = 0 := by
    rw [h.connections] at hi
    cases s <;> simp [Stage.connections, List.getElem?_singleton] at hi
    · rw [← hi.2.2] at hlast
      cases hlast
    · exact ⟨by rw [hi.2.1, hi.2.2], hi.1⟩
  obtain ⟨rfl, rfl⟩ := hs
  refine ⟨rfl, hleads.trans h.leads, by simp [hflag], trivial, fun m hm => ?_, ?_, h.answers,
    fun b leader id hb hp => ?_, h.fresh, h.pending, h.infos⟩
  · exact absurd (h.inside m hm) (by simp [Stage.inside])
  · show w.connections.eraseIdx 0 = []
    rw [h.connections]
    rfl
  · exact absurd (h.live b leader id hb hp) (by simp)

end Lock

/-! ## What a step does to the stage -/

/-- How the graphs of the leader and of the join change with the stage. -/
inductive Turn (it : Iter) (w w' : World) : List Mark → Stage → Stage → Prop
  | quiet {marks : List Mark} {s s' : Stage} (hmarks : marks = [] ∨ ∃ n, marks = [.requested n])
      (hgraph : w'.leader.cgraph = w.leader.cgraph) (hstage : s' = s ∨ s'.copy = none) :
      Turn it w w' marks s s'
  | received {n : ClusterNodeInfo} {graph : WCGraph} (hgraph : w'.leader.cgraph = w.leader.cgraph) :
      Turn it w w' [] (.sending n graph) (.completing n graph)
  | answered {n : ClusterNodeInfo} (hgraph : w'.leader.cgraph = w.leader.cgraph) :
      Turn it w w' [.answered n] (.asking n) (.sending n w.leader.cgraph)
  | completed {n : ClusterNodeInfo} {graph graph' : WCGraph}
      (hgraph : w'.leader.cgraph = w.leader.cgraph) (hgraph' : graph.Wf → graph'.Wf ∧
        ∀ x, x ∈ graph'.infos ↔ x ∈ graph.infos ∨ x = n) :
      Turn it w w' [] (.completing n graph) (.leaving n (.cGraphUpdate graph'))
  | updated {n : ClusterNodeInfo} {graph : WCGraph} (hgraph : w'.leader.cgraph = graph) :
      Turn it w w' [.updated n] (.leaving n (.cGraphUpdate graph)) .free
  | removed {info : ClusterNodeInfo} {s : Stage}
      (hgraph : w.leader.cgraph.removeOneBy it (fun n => n.info = info) = .ok w'.leader.cgraph) :
      Turn it w w' [.removed info] s s

theorem completeGraph_infos {c c' : Ctrl} {fuel : Nat} {its : Nat → Iter}
    {attempt : ClusterNodeInfo → Nat → Option Nat} (h : c.completeGraph fuel its attempt = .ok c') :
    c'.myInfo = c.myInfo ∧ (c.cgraph.Wf → c'.cgraph.Wf ∧
      ∀ x, x ∈ c'.cgraph.infos ↔ x ∈ c.cgraph.infos ∨ x = c.myInfo) := by
  unfold Ctrl.completeGraph at h
  obtain ⟨⟨me, cgraph, tests⟩, hgraph, h⟩ := of_bind_eq_ok h
  cases h
  exact ⟨rfl, fun hwf => CGraph.completeGraph_infos hwf hgraph⟩

namespace Lock

variable {it : Iter} {w w' : World} {m : Move} {marks : List Mark} {s : Stage}

theorem accepted_of_phase (h : Lock w s) {n leader : ClusterNodeInfo} {id : Uuid}
    (hn : w.phase n = .accepted leader id) : s = .accepted n := by
  have hs := h.inside n (by rw [hn]; rfl)
  have hfits := h.fits
  cases s <;> simp [Stage.inside] at hs <;> subst hs <;> simp [Stage.Fits, hn] at hfits
  rfl

theorem completing_of_phase (h : Lock w s) {n : ClusterNodeInfo} {id : Uuid}
    (hn : w.phase n = .completing id) : s = .completing n (w.peers n).ctrl.cgraph := by
  have hs := h.inside n (by rw [hn]; rfl)
  have hfits := h.fits
  cases s <;> simp [Stage.inside] at hs <;> subst hs <;> simp [Stage.Fits, hn] at hfits
  rw [hfits]

theorem asking_of_connection (h : Lock w s) {i : Nat} {n : ClusterNodeInfo}
    (hi : w.connections[i]? = some (n, .cGraphGet)) : s = .asking n ∧ i = 0 := by
  rw [h.connections] at hi
  have hfits := h.fits
  cases s <;> simp [Stage.connections, List.getElem?_singleton] at hi
  · exact ⟨by rw [hi.2], hi.1⟩
  · rw [Stage.Fits, hi.2.2] at hfits
    cases hfits

theorem sending_of_answer (h : Lock w s) {i : Nat} {n : ClusterNodeInfo} {graph : WCGraph}
    (hi : w.answers[i]? = some (n, .cGraphSend graph)) : s = .sending n graph ∧ i = 0 := by
  rw [h.answers] at hi
  cases s <;> simp [Stage.answers, List.getElem?_singleton] at hi
  exact ⟨by rw [hi.2.1, hi.2.2], hi.1⟩

theorem leave (h : Lock w s) {n : ClusterNodeInfo} (hn : (w.phase n).isInside = true) {p : Peer}
    {event : Event} (hp : p.phase.isIdle = true) (hinfo : p.ctrl.myInfo = n)
    (hconnections : s.connections = []) (hanswers : s.answers = []) (hlast : event.isLast = true) :
    Lock ((w.setPeer n p).connect n event) (.leaving n event) := by
  refine h.proceed hn rfl rfl rfl rfl (fun r hr => ?_) hinfo (by simp) hlast ?_ ?_ ?_
  · rw [hr] at hp
    cases hp
  · cases hq : p.phase <;> simp [hq, Phase.isIdle] at hp <;> rfl
  · show w.connections ++ [(n, event)] = [(n, event)]
    rw [h.connections, hconnections]
    rfl
  · exact h.answers.trans hanswers

theorem turn (h : Lock w s) (hstep : Stepped it w m marks w') :
    ∃ s', Lock w' s' ∧ Turn it w w' marks s s' := by
  have hold : ∀ {i : Nat} {d : Datagram}, d ∈ w.datagrams.eraseIdx i → d ∈ w.datagrams :=
    fun hd => List.mem_of_mem_eraseIdx hd
  cases hstep with
  | @request _ n ctrl k hidle hinfo =>
    exact ⟨s, h.request hidle (hinfo.trans (h.infos n)) k, .quiet (Or.inr ⟨n, rfl⟩) rfl (Or.inl rfl)⟩
  | @giveUp n hphase =>
    exact ⟨s, h.rest (by rw [hphase]; rfl) rfl (h.infos n), .quiet (Or.inl rfl) rfl (Or.inl rfl)⟩
  | @timeout n r hphase =>
    exact ⟨s, h.rest (by rw [hphase]; rfl) rfl (h.infos n), .quiet (Or.inl rfl) rfl (Or.inl rfl)⟩
  | @wait i seconds b info hd hadding =>
    refine ⟨s, h.datagrams fun d hd' => ?_, .quiet (Or.inl rfl) rfl (Or.inl rfl)⟩
    rcases List.mem_append.mp hd' with hd' | hd'
    · exact Or.inl (hold hd')
    · rw [List.mem_singleton.mp hd']
      exact Or.inr ⟨h.fresh ⟨b, .cjqRequest info⟩ (List.mem_of_getElem? hd), by simp⟩
  | @accept i b info misses id hd hadding =>
    obtain rfl := h.free_of_flag hadding
    exact ⟨_, h.accept misses id hd, .quiet (Or.inl rfl) rfl (Or.inr rfl)⟩
  | @hearAccepted i k b leader id hd hphase =>
    obtain ⟨rfl, h'⟩ := h.hearAccepted hd (h.infos b.node) hphase
    exact ⟨_, h', .quiet (Or.inl rfl) rfl (Or.inr rfl)⟩
  | @hearWait i k seconds b hd hphase =>
    have h' := h.rest (n := b.node) (p := ⟨(w.peers b.node).ctrl, k, .waiting⟩) (by rw [hphase]; rfl)
      rfl (h.infos b.node)
    exact ⟨s, h'.datagrams fun d hd' => Or.inl (hold hd'), .quiet (Or.inl rfl) rfl (Or.inl rfl)⟩
  | lose hd =>
    exact ⟨s, h.datagrams fun d hd' => Or.inl (hold hd'), .quiet (Or.inl rfl) rfl (Or.inl rfl)⟩
  | unheard hd hphase =>
    exact ⟨s, h.datagrams fun d hd' => Or.inl (hold hd'), .quiet (Or.inl rfl) rfl (Or.inl rfl)⟩
  | @duplicate i d hd =>
    refine ⟨s, h.datagrams fun d' hd' => Or.inl ?_, .quiet (Or.inl rfl) rfl (Or.inl rfl)⟩
    rcases List.mem_append.mp hd' with hd' | hd'
    · exact hd'
    · exact List.mem_singleton.mp hd' ▸ List.mem_of_getElem? hd
  | @askGraph n leader id hphase =>
    obtain rfl := h.accepted_of_phase hphase
    have hphase' : ((w.setPhase n (.asked id)).connect n .cGraphGet).phase n = .asked id :=
      (w.phase_setPhase n n _).trans (if_pos rfl)
    refine ⟨.asking n, h.proceed (by rw [hphase]; rfl) rfl rfl rfl rfl (by simp) (h.infos n) (by simp)
      ⟨id, hphase'⟩ rfl ?_ h.answers, .quiet (Or.inl rfl) rfl (Or.inr rfl)⟩
    show w.connections ++ [(n, .cGraphGet)] = [(n, .cGraphGet)]
    rw [h.connections]
    rfl
  | @failToAsk n leader id hphase =>
    obtain rfl := h.accepted_of_phase hphase
    exact ⟨_, h.leave (by rw [hphase]; rfl) rfl (h.infos n) rfl rfl rfl,
      .quiet (Or.inl rfl) rfl (Or.inr rfl)⟩
  | @sendGraph i n hi =>
    obtain ⟨rfl, rfl⟩ := h.asking_of_connection hi
    obtain ⟨id, hphase⟩ := h.fits
    have hsame : w.setPeer n (w.peers n) = w := by simp [World.setPeer]
    refine ⟨.sending n w.leader.cgraph,
      h.proceed (p := w.peers n) (by rw [hphase]; rfl) (by rw [hsame]) rfl rfl rfl
      (fun r hr => ?_) (h.infos n) (by simp) ⟨id, hphase⟩ ?_ ?_ ?_, .answered rfl⟩
    · rw [show (w.peers n).phase = .asked id from hphase] at hr
      cases hr
    · rw [show (w.peers n).phase = .asked id from hphase]
      rfl
    · show w.connections.eraseIdx 0 = []
      rw [h.connections]
      rfl
    · show w.answers ++ [(n, .cGraphSend w.leader.cgraph)] = [(n, .cGraphSend w.leader.cgraph)]
      rw [h.answers]
      rfl
  | @update i n graph hi =>
    obtain ⟨rfl, h'⟩ := h.last hi rfl (c := { w.leader with addingNewNode := false, cgraph := graph })
      rfl rfl
    exact ⟨_, h', .updated rfl⟩
  | @abort i n hi =>
    obtain ⟨rfl, h'⟩ := h.last hi rfl (c := { w.leader with addingNewNode := false }) rfl rfl
    exact ⟨_, h', .quiet (Or.inl rfl) rfl (Or.inr rfl)⟩
  | @receiveGraph i n graph id hi hphase =>
    obtain ⟨rfl, rfl⟩ := h.sending_of_answer hi
    have hpeer := w.peers_setPeer n n { w.peers n with
      ctrl := { (w.peers n).ctrl with cgraph := graph }
      phase := .completing id }
    rw [if_pos rfl] at hpeer
    refine ⟨.completing n graph, h.proceed (by rw [hphase]; rfl) rfl rfl rfl rfl (by simp) (h.infos n)
      (by simp) ⟨⟨id, congrArg Peer.phase hpeer⟩, congrArg (fun p => p.ctrl.cgraph) hpeer⟩ rfl
      h.connections ?_, .received rfl⟩
    show w.answers.eraseIdx 0 = []
    rw [h.answers]
    rfl
  | @complete n fuel its attempt id ctrl hphase hctrl =>
    obtain rfl := h.completing_of_phase hphase
    obtain ⟨hinfo, hinfos⟩ := completeGraph_infos hctrl
    have hn := h.infos n
    exact ⟨_, h.leave (by rw [hphase]; rfl) rfl (hinfo.trans hn) rfl rfl rfl,
      .completed rfl (by rw [hn] at hinfos; exact hinfos)⟩
  | @failToComplete n fuel its attempt id hphase =>
    obtain rfl := h.completing_of_phase hphase
    exact ⟨_, h.leave (by rw [hphase]; rfl) rfl (h.infos n) rfl rfl rfl,
      .quiet (Or.inl rfl) rfl (Or.inr rfl)⟩
  | missed => exact ⟨s, h.leader rfl rfl, .quiet (Or.inl rfl) rfl (Or.inl rfl)⟩
  | removed hgraph => exact ⟨s, h.leader rfl rfl, .removed hgraph⟩

end Lock

/-! ## Runs -/

/-- The copy of the graph that is out has every node of the leader's graph. -/
structure Copies (w : World) (s : Stage) : Prop where
  wf : w.leader.cgraph.Wf
  copy : ∀ n graph, s.copy = some (n, graph) →
    graph.Wf ∧ ∀ x ∈ w.leader.cgraph.infos, x ∈ graph.infos

theorem Copies.turn {it : Iter} {w w' : World} {marks : List Mark} {s s' : Stage} (h : Copies w s)
    (hturn : Turn it w w' marks s s') : Copies w' s' := by
  cases hturn with
  | quiet hmarks hgraph hstage =>
    refine ⟨hgraph ▸ h.wf, fun n graph hcopied => ?_⟩
    rw [hgraph]
    rcases hstage with rfl | hnone
    · exact h.copy n graph hcopied
    · rw [hnone] at hcopied
      cases hcopied
  | received hgraph =>
    refine ⟨hgraph ▸ h.wf, fun n graph hcopied => ?_⟩
    rw [hgraph]
    exact h.copy n graph hcopied
  | answered hgraph =>
    refine ⟨hgraph ▸ h.wf, fun n graph hcopied => ?_⟩
    cases hcopied
    rw [hgraph]
    exact ⟨h.wf, fun x hx => hx⟩
  | @completed n graph graph' hgraph hgraph' =>
    obtain ⟨hwf, hinfos⟩ := h.copy n graph rfl
    obtain ⟨hwf', hinfos'⟩ := hgraph' hwf
    refine ⟨hgraph ▸ h.wf, fun m graph hcopied => ?_⟩
    cases hcopied
    rw [hgraph]
    exact ⟨hwf', fun x hx => (hinfos' x).mpr (Or.inl (hinfos x hx))⟩
  | @updated n graph hgraph =>
    refine ⟨hgraph ▸ (h.copy n graph rfl).1, fun m graph hcopied => ?_⟩
    cases hcopied
  | removed hgraph =>
    obtain ⟨hwf, hinfos⟩ := CGraph.removeOneBy_infos h.wf hgraph
    refine ⟨hwf, fun n graph hcopied => ?_⟩
    obtain ⟨hwf', hold⟩ := h.copy n graph hcopied
    exact ⟨hwf', fun x hx => hold x ((hinfos x).mp hx).1⟩

theorem createCluster_spec {it : Iter} {config : RunnerConfig} {info : ClusterNodeInfo} {speed : Nat}
    {newId : Uuid} {c : Ctrl}
    (h : (Ctrl.build config info speed true).createCluster it newId = .ok c) :
    c.isLeader = true ∧ c.addingNewNode = false ∧ c.cgraph.Wf := by
  unfold Ctrl.createCluster at h
  obtain ⟨⟨cgraph, node⟩, hadd, h⟩ := Run.of_bind_eq_ok h
  cases h
  obtain ⟨-, -, hsame | ⟨-, hadded⟩⟩ :=
    Returns.of_eq (CGraph.addNode_spec it CGraph.Indexed.new speed info) hadd
  · exact ⟨rfl, rfl, by rw [show cgraph = CGraph.new from hsame]; exact CGraph.Wf.new⟩
  · exact ⟨rfl, rfl, hadded.wf CGraph.Wf.new⟩

theorem World.Initial.lock {w : World} (h : w.Initial) : Lock w .free ∧ Copies w .free := by
  obtain ⟨it, config, info, speed, newId, hc⟩ := h.leader
  obtain ⟨hleads, hflag, hwf⟩ := createCluster_spec hc
  have hoff : ∀ n, w.phase n = .off := fun n => (h.peers n).1
  refine ⟨⟨hleads, by simp [hflag], trivial, fun n hn => ?_, h.connections, h.answers,
    fun b leader id hb => ?_, fun d hd => ?_, fun n r hn => ?_, fun n => (h.peers n).2⟩,
    hwf, fun n graph hcopied => ?_⟩
  · rw [hoff] at hn
    cases hn
  · rw [h.datagrams] at hb
    cases hb
  · rw [h.datagrams] at hd
    cases hd
  · rw [hoff] at hn
    cases hn
  · cases hcopied

/-- In every run the lock is at some stage, and the next step takes it to the next one. -/
theorem Trace.lock {w₀ w : World} {log : List Mark} (h : Trace w₀ log w) :
    ∃ s, Lock w s ∧ Copies w s := by
  induction h with
  | start h => exact ⟨.free, h.lock⟩
  | step it m h hw' ih =>
    obtain ⟨s, hlock, hcopies⟩ := ih
    obtain ⟨s', hlock', hturn⟩ := hlock.turn (World.step_ok hlock.leads hlock.joining hw')
    exact ⟨s', hlock', hcopies.turn hturn⟩

/-! ## One join at a time -/

/-- Between receiving `Accepted` and the leader's processing of the last message. -/
def World.Joining (w : World) (n : ClusterNodeInfo) : Prop :=
  (w.phase n).isInside = true ∨ ∃ event, (n, event) ∈ w.connections ∧ event.isLast = true

theorem Lock.joining_stage {w : World} {s : Stage} (h : Lock w s) {n : ClusterNodeInfo}
    (hn : w.Joining n) : s.inside = some n ∨ ∃ event, s = .leaving n event := by
  rcases hn with hn | ⟨event, hmem, hlast⟩
  · exact Or.inl (h.inside n hn)
  · rw [h.connections] at hmem
    cases s <;> simp [Stage.connections] at hmem
    · rw [hmem.2] at hlast
      cases hlast
    · exact Or.inr ⟨event, by rw [hmem.1, hmem.2]⟩

/-- At most one node is joining, with one window, the lock is set meanwhile, and the graph that
the node sends has every node that the leader's graph has. -/
theorem join_exclusive {w₀ w : World} {log : List Mark} (h : Trace w₀ log w) :
    (∀ a b, w.Joining a → w.Joining b → a = b) ∧
    (∀ a, w.Joining a → w.leader.addingNewNode = true) ∧
    (w.connections.length ≤ 1 ∧ ∀ a, (w.phase a).isInside = true →
      ∀ p ∈ w.connections, p.2.isLast = false) ∧
    ∀ n graph, (n, .cGraphUpdate graph) ∈ w.connections →
      ∀ x ∈ w.leader.cgraph.infos, x ∈ graph.infos := by
  obtain ⟨s, hlock, hcopies⟩ := h.lock
  refine ⟨fun a b ha hb => ?_, fun a ha => ?_, ⟨?_, fun a ha p hp => ?_⟩, fun n graph hmem => ?_⟩
  · rcases hlock.joining_stage ha with ha | ⟨e, rfl⟩ <;> rcases hlock.joining_stage hb with hb | ⟨e', hb⟩
    · rw [ha] at hb
      exact Option.some.inj hb
    · rw [hb] at ha
      cases ha
    · cases hb
    · cases hb
      rfl
  · apply hlock.flag.mpr
    rintro rfl
    rcases hlock.joining_stage ha with ha | ⟨e, ha⟩ <;> cases ha
  · rw [hlock.connections]
    cases s <;> simp [Stage.connections]
  · have hs := hlock.inside a ha
    rw [hlock.connections] at hp
    cases s <;> simp [Stage.connections, Stage.inside] at hp hs
    rw [hp]
    rfl
  · rw [hlock.connections] at hmem
    refine (hcopies.copy n graph ?_).2
    cases s <;> simp [Stage.connections] at hmem
    rw [hmem.1, ← hmem.2]
    rfl

def demoNode (n : Nat) : ClusterNodeInfo := ⟨.v4 n, 9090⟩

def demoConfig : RunnerConfig :=
  { sufficientSpeed := 50, perfTestRetries := 1, cjqRetry := 3, cjqWaitingTimeSeconds := 5
    heartbeatMisses := 2 }

def demoWorld (leader : Ctrl) : World :=
  { leader
    peers := fun n => ⟨Ctrl.build demoConfig n 100 false, 3, .off⟩
    datagrams := []
    connections := []
    answers := []
    nextRequest := 0 }

def demoRun (ms : List Move) : Act Mark World := do
  let leader ← liftM ((Ctrl.build demoConfig (demoNode 0) 100 true).createCluster .inOrder ⟨7⟩)
  (demoWorld leader).run .inOrder ms

theorem demoRun_trace {ms : List Move} {w : World} (h : (demoRun ms).result = .ok w) :
    ∃ w₀, Trace w₀ (demoRun ms).log w := by
  unfold demoRun at h ⊢
  obtain ⟨leader, hleader, h, hlog⟩ := of_bind_eq_ok h
  rw [hlog]
  refine ⟨demoWorld leader, (Trace.start ⟨⟨_, _, _, _, _, hleader⟩, fun n => ⟨rfl, rfl⟩, rfl, rfl,
    rfl⟩).run h⟩

def demoComplete (n : Nat) : Move :=
  .complete (demoNode n) 5 (fun _ => .inOrder) fun _ _ => some 80

theorem join_exclusive_demo : ∃ w₀ log w, Trace w₀ log w ∧ w.phase (demoNode 2) = .waiting ∧
    w.Joining (demoNode 1) ∧ w.leader.addingNewNode = true ∧
    ∀ a, w.Joining a → a = demoNode 1 := by
  obtain ⟨w, hw, hwaiting, hmem⟩ : Returns (demoRun [.start (demoNode 1), .deliver 0, .deliver 0,
      .askGraph (demoNode 1), .serve 0, .receiveGraph 0, demoComplete 1, .start (demoNode 2),
      .deliver 0, .deliver 0]).result fun w => w.phase (demoNode 2) = .waiting ∧
        (w.connections.map fun p => (p.1, p.2.isLast)) = [(demoNode 1, true)] := by decide +kernel
  obtain ⟨w₀, htrace⟩ := demoRun_trace hw
  have hjoining : w.Joining (demoNode 1) := by
    obtain ⟨⟨n, event⟩, hp, heq⟩ := List.mem_map.mp (hmem ▸ List.mem_singleton_self _)
    obtain ⟨rfl, hlast⟩ := Prod.mk.inj heq
    exact Or.inr ⟨event, hp, hlast⟩
  obtain ⟨hone, hflag, -⟩ := join_exclusive htrace
  exact ⟨w₀, _, w, htrace, hwaiting, hjoining, hflag _ hjoining, fun a ha => hone _ _ ha hjoining⟩

end Cmanager

end Kollaps
