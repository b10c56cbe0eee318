import Kollaps.Lib.Checks
import Kollaps.Netgraph.Paths
import Kollaps.Xmlgraphparser.Bandwidth
import Kollaps.Xmlgraphparser.Identity

/-!
# What the parser checks

`parse_topology` can report what is wrong with a document. It does so for the shape of the document,
but names and values are often unwrapped instead. The checks stand here in the order of the parser.
-/

namespace Kollaps

open Run

namespace Xmlgraphparser

/-! ## What may be wrong -/

/-- An attribute that is there, with a text that cannot be read. -/
def Unreadable {α : Type} (read : String → Option α) (node : XmlNode) (name : String) : Prop :=
  ∃ text, node.attr name = some text ∧ read text = none

def IsContainer (service : XmlNode) : Prop :=
  ∃ kind, service.attr "kind" = some kind ∧ Text.toUppercase kind = "CONTAINER"

def IsBareMetal (service : XmlNode) : Prop :=
  ∃ kind, service.attr "kind" = some kind ∧ Text.toUppercase kind = "BAREMETAL"

/-- A service of a known kind. A container also needs an image and a command. -/
def Deployable (service : XmlNode) : Prop :=
  IsBareMetal service ∨ (IsContainer service ∧ service.attr "image" ≠ none ∧ service.attr "command" ≠ none)

/-- A container whose image or command is there and is empty. -/
def EmptyContainer (service : XmlNode) : Prop :=
  IsContainer service ∧ (service.attr "image" = some "" ∨ service.attr "command" = some "")

def serviceChecks (service : XmlNode) : List Check :=
  [.reports (service.tagName ≠ "service"),
    .reports (¬ Deployable service),
    .panics (EmptyContainer service),
    .reports (service.attr "name" = none),
    .panics (Unreadable Text.ipAddr service "ip")]

def bridgeChecks (bridge : XmlNode) : List Check :=
  [.reports (bridge.tagName ≠ "bridge"), .reports (bridge.attr "name" = none)]

/-- The names are those of the services and bridges. -/
def linkChecks (libs : XmlLibraries) (names : List (Option String)) (link : XmlNode) : List Check :=
  [.reports (link.tagName ≠ "link"),
    .reports (link.attr "origin" = none ∨ link.attr "dest" = none ∨ link.attr "bandwidth" = none),
    .panics (link.attr "origin" ∉ names),
    .panics (link.attr "dest" ∉ names),
    .panics (Unreadable (Text.float .binary32) link "jitter"),
    .panics (Unreadable (Text.float .binary32) link "latency"),
    .panics (Unreadable (Text.float .binary32) link "drop"),
    .reports (Unreadable libs.captures link "bandwidth")]

def NegativeTime (event : XmlNode) : Prop :=
  ∃ text time, event.attr "time" = some text ∧ Text.float .binary64 text = some time ∧ time.isNegative = true

def UnknownAction (event : XmlNode) : Prop :=
  ∃ text, event.attr "action" = some text ∧ Text.toUppercase text ∉ ["JOIN", "LEAVE", "CRASH"]

/-- The test for a name and an action is one for both of them missing. -/
def eventChecks (names : List (Option String)) (event : XmlNode) : List Check :=
  [.reports (event.tagName ≠ "schedule"),
    .panics (Unreadable (Text.float .binary64) event "time"),
    .reports (NegativeTime event),
    .reports (event.attr "name" = none ∧ event.attr "action" = none),
    .panics (event.attr "name" = none),
    .panics (event.attr "action" = none),
    .reports (UnknownAction event),
    .reports (event.attr "name" ∉ names)]

/-! ## The blocks of a document -/

def blockTags : List String := ["services", "bridges", "links", "dynamic"]

/-- No block comes twice. -/
def Once (elements : List XmlNode) : Prop := ∀ tag ∈ blockTags, (elements.map XmlNode.tagName).count tag ≤ 1

def block (elements : List XmlNode) (tag : String) : Option XmlNode := elements.find? fun e => e.tagName = tag

/-- What is inside of a block, and nothing where the block is missing. -/
def inside (elements : List XmlNode) (tag : String) : List XmlNode :=
  ((block elements tag).map XmlNode.elements).getD []

def declared (elements : List XmlNode) : List (Option String) :=
  (inside elements "services" ++ inside elements "bridges").map fun x => x.attr "name"

/-- All checks of a document, in the order of the parser. -/
def checks (libs : XmlLibraries) (root : XmlNode) : List Check :=
  [.reports (root.tagName ≠ "experiment"),
    .reports (root.attr "boot" = none),
    .reports (¬ Once root.elements)] ++
  (.reports (block root.elements "services" = none) ::
    ((inside root.elements "services").flatMap serviceChecks ++
    (inside root.elements "bridges").flatMap bridgeChecks) ++
  (.reports (block root.elements "links" = none) ::
    ((inside root.elements "links").flatMap (linkChecks libs (declared root.elements)) ++
    (inside root.elements "dynamic").flatMap (eventChecks (declared root.elements)))))

/-! ## Services and bridges -/

theorem hasAttribute_iff {node : XmlNode} {name : String} :
    node.hasAttribute name = true ↔ node.attr name ≠ none := by
  rw [XmlNode.hasAttribute, Option.isSome_iff_ne_none]

theorem produceNameForContainer_ne (emulId : Uuid) (nodeId : Nat) :
    produceNameForContainer emulId nodeId ≠ "" := by
  intro h
  have hlen := congrArg String.length h
  simp [produceNameForContainer] at hlen

/-- The name is never empty, so only the image and the command can be. -/
theorem containerConfig_judged (emulId : Uuid) (nodeId : Nat) (image command : String) :
    Judged (ContainerConfig.new (produceNameForContainer emulId nodeId) none (some (image, some command)))
      [.panics (image = "" ∨ command = "")] := by
  unfold ContainerConfig.new
  simp only [Option.any_some, String.isEmpty_iff, produceNameForContainer_ne, if_false]
  split
  · rename_i h
    exact Judged.panics (Or.inl h) (by simp)
  · rename_i himage
    split
    · rename_i h
      exact Judged.panics (Or.inr h) (by simp)
    · rename_i hcommand
      exact Judged.met (by rintro (h | h) <;> contradiction) (Judged.ok _)

theorem containerKind_judged {emulId : Uuid} {nodeId : Nat} {service : XmlNode} (h : IsContainer service)
    (hbare : ¬ IsBareMetal service) : Judged (containerKind emulId nodeId service)
      [.reports (¬ Deployable service), .panics (EmptyContainer service)] := by
  have hmissing : service.attr "image" = none ∨ service.attr "command" = none → ¬ Deployable service := by
    rintro hnone (hmetal | ⟨-, himage, hcommand⟩)
    · exact hbare hmetal
    · rcases hnone with hnone | hnone
      · exact himage hnone
      · exact hcommand hnone
  unfold containerKind produceErr
  split
  · rename_i hattach
    simp only [Bool.and_eq_true, Bool.not_eq_true'] at hattach
    refine Judged.reports (hmissing (Or.inl ?_)) _
    by_contra himage
    rw [hasAttribute_iff.mpr himage] at hattach
    exact absurd hattach.1.1.1 (by simp)
  · split
    · rename_i image command himage hcommand
      refine Judged.met (fun hnot => hnot (Or.inr ⟨h, by simp [himage], by simp [hcommand]⟩)) ?_
      have hempty : EmptyContainer service ↔ image = "" ∨ command = "" := by
        unfold EmptyContainer
        rw [himage, hcommand, Option.some.injEq, Option.some.injEq]
        exact and_iff_right h
      rw [hempty]
      exact (containerConfig_judged emulId nodeId image command).bind fun config _ => Judged.ok _
    · rename_i hnot
      refine Judged.reports (hmissing ?_) _
      by_contra hboth
      rw [not_or] at hboth
      obtain ⟨image, himage⟩ := Option.ne_none_iff_exists'.mp hboth.1
      obtain ⟨command, hcommand⟩ := Option.ne_none_iff_exists'.mp hboth.2
      exact hnot image command himage hcommand

theorem serviceKind_judged (emulId : Uuid) (nodeId : Nat) (service : XmlNode) :
    Judged (serviceKind emulId nodeId service)
      [.reports (¬ Deployable service), .panics (EmptyContainer service)] := by
  unfold serviceKind produceErr
  split
  · rename_i hkind
    refine Judged.reports ?_ _
    rintro (⟨kind, h, -⟩ | ⟨⟨kind, h, -⟩, -⟩) <;> rw [hkind] at h <;> cases h
  · rename_i kind hkind
    have hcontainer : IsContainer service ↔ Text.toUppercase kind = "CONTAINER" := by
      simp [IsContainer, hkind]
    have hbare : IsBareMetal service ↔ Text.toUppercase kind = "BAREMETAL" := by
      simp [IsBareMetal, hkind]
    split
    · rename_i hupper
      exact containerKind_judged (hcontainer.mpr hupper) (by rw [hbare, hupper]; decide)
    · rename_i hupper
      refine Judged.met (fun hnot => hnot (Or.inl (hbare.mpr hupper))) (Judged.met ?_ (Judged.ok _))
      rintro ⟨h, -⟩
      rw [hcontainer, hupper] at h
      exact absurd h (by decide)
    · rename_i hnot1 hnot2
      refine Judged.reports ?_ _
      rintro (h | ⟨h, -⟩)
      · exact hnot2 (hbare.mp h)
      · exact hnot1 (hcontainer.mp h)

theorem serviceName_judged (service : XmlNode) :
    Judged (serviceName service) [.reports (service.attr "name" = none)] := by
  unfold serviceName produceErr
  split
  · rename_i name hname
    exact Judged.met (by simp [Check.Wrong, hname]) (Judged.ok name)
  · rename_i hname
    exact Judged.reports hname _

theorem unreadable_judged {α : Type} {read : String → Option α} {node : XmlNode} {name text : String}
    (h : node.attr name = some text) : Judged (unwrap (read text)) [.panics (Unreadable read node name)] := by
  have hread : Unreadable read node name ↔ read text = none := by simp [Unreadable, h]
  rw [hread]
  exact Judged.unwrap _

theorem not_unreadable {α : Type} {read : String → Option α} {node : XmlNode} {name : String}
    (h : node.attr name = none) : ¬ Unreadable read node name := by
  rintro ⟨text, htext, -⟩
  rw [h] at htext
  cases htext

theorem serviceIp_judged (service : XmlNode) :
    Judged (serviceIp service) [.panics (Unreadable Text.ipAddr service "ip")] := by
  unfold serviceIp
  split
  · rename_i ip hip
    exact (unreadable_judged hip).map
  · rename_i hip
    exact Judged.met (not_unreadable hip) (Judged.ok none)

theorem parseService_judged (emulId : Uuid) (s : NodeMap × Nat) (service : XmlNode) :
    Judged (parseService emulId s service) (serviceChecks service) := by
  unfold parseService produceErr
  refine Judged.guard fun _ => ?_
  refine Judged.bind (serviceKind_judged emulId s.2 service) fun kind _ => ?_
  refine Judged.bind (serviceName_judged service) fun name _ => ?_
  exact Judged.bind (serviceIp_judged service) fun ip _ => Judged.ok _

theorem parseServices_judged (services : XmlNode) (emulId : Uuid) (nodes : NodeMap) :
    Judged (parseServices services emulId nodes) (services.elements.flatMap serviceChecks) := by
  have hfold : Judged (services.elements.foldlM (parseService emulId) (nodes, nodes.len)) _ :=
    Judged.foldlM serviceChecks (fun _ => True) trivial
      (fun service _ s _ => parseService_judged emulId s service)
      fun _ _ _ _ _ _ => trivial
  have hall := hfold.bind (f := fun s => .ok s.1) fun s _ => Judged.ok s.1
  rw [List.append_nil] at hall
  exact hall

theorem parseBridge_judged (s : NodeMap × Nat) (bridge : XmlNode) :
    Judged (parseBridge s bridge) (bridgeChecks bridge) := by
  unfold parseBridge produceErr
  refine Judged.guard fun _ => ?_
  split
  · rename_i hname
    exact Judged.reports hname _
  · rename_i name hname
    exact Judged.met (by simp [Check.Wrong, hname]) (Judged.ok _)

theorem parseBridges_judged (bridges : XmlNode) (nodes : NodeMap) :
    Judged (parseBridges bridges nodes) (bridges.elements.flatMap bridgeChecks) := by
  have hfold : Judged (bridges.elements.foldlM parseBridge (nodes, nodes.len)) _ :=
    Judged.foldlM bridgeChecks (fun _ => True) trivial (fun bridge _ s _ => parseBridge_judged s bridge)
      fun _ _ _ _ _ _ => trivial
  have hall := hfold.bind (f := fun s => .ok s.1) fun s _ => Judged.ok s.1
  rw [List.append_nil] at hall
  exact hall

/-! ## Links -/

theorem parseLink_built {libs : XmlLibraries} {nodes : NodeMap} {g g' : Network Node} {link : XmlNode}
    (h : parseLink libs nodes g link = .ok g') (hg : g.Built) : g'.Built := by
  obtain ⟨source, destination, bandwidth, latencyJitter, drop, hbandwidth, hadd⟩ := parseLink_ok h
  exact hg.addEdgeWithProps hbandwidth hadd

theorem parseTopology_built {libs : XmlLibraries} {it : Iter} {text : String} {emulId : Uuid}
    {network : Network Node} {events : List EmulationEvent}
    (h : parseTopology libs it text emulId = .ok (network, events)) : network.Built := by
  obtain ⟨b, -, h⟩ := of_bind_eq_ok h
  obtain ⟨nodes, -, h⟩ := of_bind_eq_ok h
  obtain ⟨net₀, hnet, h⟩ := of_bind_eq_ok h
  split at h
  · cases h
  · obtain ⟨net₁, hlinks, h⟩ := of_bind_eq_ok h
    obtain ⟨schedule, -, h⟩ := of_bind_eq_ok h
    cases h
    exact foldlM_ok_inv Network.Built (.new hnet) (fun _ _ _ _ hg hlink => parseLink_built hlink hg) hlinks

theorem addEdgeWithProps_returns {g : Network Node} (hg : g.Wf) (source destination : Node) (bandwidth : Nat)
    (latencyJitter : F32 × F32) (drop : F32) :
    Returns (g.addEdgeWithProps source destination bandwidth latencyJitter drop) fun _ => True := by
  unfold Network.addEdgeWithProps
  cases hends : g.mapTwo source destination with
  | none => exact ⟨g, rfl, trivial⟩
  | some ends =>
    obtain ⟨hs, hd⟩ := Network.mapTwo_eq_some.mp hends
    refine (g.links.setIndex_spec (hg.map_lt source _ hs) (hg.map_lt destination _ hd) _).bind
      fun links _ => ?_
    exact ⟨_, rfl, trivial⟩

theorem floatAttribute_judged (link : XmlNode) (name : String) :
    Judged (floatAttribute link name) [.panics (Unreadable (Text.float .binary32) link name)] := by
  unfold floatAttribute
  split
  · rename_i text htext
    exact unreadable_judged htext
  · rename_i hnone
    exact Judged.met (not_unreadable hnone) (Judged.ok 0)

/-- The digits of a match are always read. -/
theorem parseBandwidth_judged {libs : XmlLibraries} (hcaptures : Leftmost libs.captures) {link : XmlNode}
    {bandwidth : String} (h : link.attr "bandwidth" = some bandwidth) :
    Judged (parseBandwidth libs bandwidth) [.reports (Unreadable libs.captures link "bandwidth")] := by
  have hread : Unreadable libs.captures link "bandwidth" ↔ libs.captures bandwidth = none := by
    simp [Unreadable, h]
  rw [hread]
  cases hmatch : libs.captures bandwidth with
  | none =>
    unfold parseBandwidth
    rw [hmatch]
    exact Judged.reports rfl _
  | some groups =>
    obtain ⟨before, digits, c, after, rfl, hm, -⟩ := hcaptures.found bandwidth groups hmatch
    obtain ⟨q, hq, -⟩ := parseBandwidth_of_match hcaptures hm
    rw [hq]
    exact Judged.met (by simp [Check.Wrong]) (Judged.ok _)

def Knows (nodes : NodeMap) (names : List (Option String)) : Prop :=
  ∀ name, nodes.lookup name = none ↔ some name ∉ names

theorem Knows.unwrap_judged {nodes : NodeMap} {names : List (Option String)} (h : Knows nodes names)
    {node : XmlNode} {key name : String} (hname : node.attr key = some name) :
    Judged (unwrap (nodes.lookup name)) [.panics (node.attr key ∉ names)] := by
  rw [hname, ← h name]
  exact Judged.unwrap _

theorem parseLink_judged {libs : XmlLibraries} (hcaptures : Leftmost libs.captures) {nodes : NodeMap}
    {names : List (Option String)} (hnames : Knows nodes names) {g : Network Node} (hg : g.Built)
    (link : XmlNode) :
    Judged (parseLink libs nodes g link) (linkChecks libs names link) := by
  unfold parseLink produceErr
  refine Judged.guard fun _ => ?_
  split
  · rename_i origin dest bandwidth horigin hdest hbandwidth
    refine Judged.met (by simp [Check.Wrong, horigin, hdest, hbandwidth]) ?_
    refine Judged.bind (hnames.unwrap_judged horigin) fun source _ => ?_
    refine Judged.bind (hnames.unwrap_judged hdest) fun destination _ => ?_
    refine Judged.bind (floatAttribute_judged link "jitter") fun jitter _ => ?_
    refine Judged.bind (floatAttribute_judged link "latency") fun latency _ => ?_
    refine Judged.bind (floatAttribute_judged link "drop") fun drop _ => ?_
    refine Judged.bind (parseBandwidth_judged hcaptures hbandwidth) fun value _ => ?_
    obtain ⟨g', hg', -⟩ := addEdgeWithProps_returns hg.wf source destination (value.asUnsigned u32Max)
      (latency, jitter) drop
    rw [hg']
    exact Judged.ok g'
  · rename_i hnot
    refine Judged.reports ?_ _
    by_contra hall
    simp only [not_or, Option.ne_none_iff_exists'] at hall
    obtain ⟨⟨origin, horigin⟩, ⟨dest, hdest⟩, ⟨bandwidth, hbandwidth⟩⟩ := hall
    exact hnot origin dest bandwidth horigin hdest hbandwidth

theorem parseLinks_judged {libs : XmlLibraries} (hcaptures : Leftmost libs.captures) {nodes : NodeMap}
    {names : List (Option String)} (hnames : Knows nodes names) {g : Network Node} (hg : g.Built)
    (links : XmlNode) :
    Judged (parseLinks libs links nodes g) (links.elements.flatMap (linkChecks libs names)) :=
  Judged.foldlM (linkChecks libs names) Network.Built hg
    (fun link _ _ hg => parseLink_judged hcaptures hnames hg link) fun _ _ _ _ hg h => parseLink_built h hg

/-! ## The schedule -/

theorem eventTime_judged (event : XmlNode) :
    Judged (eventTime event) [.panics (Unreadable (Text.float .binary64) event "time"),
      .reports (NegativeTime event)] := by
  unfold eventTime produceErr
  split
  · rename_i text htext
    refine Judged.bind (unreadable_judged htext) fun time htime => ?_
    have hnegative : NegativeTime event ↔ time.isNegative = true := by
      simp [NegativeTime, htext, unwrap_eq_ok.mp htime]
    rw [hnegative]
    exact Judged.guard fun _ => Judged.ok _
  · rename_i hnone
    refine Judged.met (not_unreadable hnone) (Judged.met ?_ (Judged.ok _))
    rintro ⟨text, time, htext, -⟩
    rw [hnone] at htext
    cases htext

theorem eventAction_judged {event : XmlNode} {text : String} (h : event.attr "action" = some text) :
    Judged (eventAction text) [.reports (UnknownAction event)] := by
  have hunknown : UnknownAction event ↔ Text.toUppercase text ∉ ["JOIN", "LEAVE", "CRASH"] := by
    simp [UnknownAction, h]
  rw [hunknown]
  unfold eventAction produceErr
  split
  · rename_i hupper
    exact Judged.met (by simp [Check.Wrong, hupper]) (Judged.ok _)
  · rename_i hupper
    exact Judged.met (by simp [Check.Wrong, hupper]) (Judged.ok _)
  · rename_i hupper
    exact Judged.met (by simp [Check.Wrong, hupper]) (Judged.ok _)
  · rename_i hjoin hleave hcrash
    exact Judged.reports (by simpa using ⟨hjoin, hleave, hcrash⟩) _

theorem parseEvent_judged {nodes : NodeMap} {names : List (Option String)} (hnames : Knows nodes names)
    (result : List EmulationEvent) (event : XmlNode) :
    Judged (parseEvent nodes result event) (eventChecks names event) := by
  unfold parseEvent produceErr
  refine Judged.guard fun _ => ?_
  refine Judged.bind (eventTime_judged event) fun time _ => ?_
  have hneither : (!event.hasAttribute "name" && !event.hasAttribute "action") = true ↔
      event.attr "name" = none ∧ event.attr "action" = none := by
    simp [XmlNode.hasAttribute]
  simp only [hneither]
  refine Judged.guard fun _ => ?_
  refine Judged.bind (Judged.unwrap (event.attr "name")) fun name hname => ?_
  refine Judged.bind (Judged.unwrap (event.attr "action")) fun text htext => ?_
  refine Judged.bind (eventAction_judged (unwrap_eq_ok.mp htext)) fun action _ => ?_
  rw [unwrap_eq_ok.mp hname, ← hnames name]
  split
  · rename_i hnone
    exact Judged.reports hnone _
  · rename_i node hnode
    exact Judged.met (by simp [Check.Wrong, hnode]) (Judged.ok _)

theorem parseSchedule_judged {nodes : NodeMap} {names : List (Option String)} (hnames : Knows nodes names)
    (dynamic : Option XmlNode) : Judged (parseSchedule nodes dynamic)
      (((dynamic.map XmlNode.elements).getD []).flatMap (eventChecks names)) := by
  unfold parseSchedule
  cases dynamic with
  | none => exact Judged.ok []
  | some dynamic =>
    exact Judged.foldlM (eventChecks names) (fun _ => True) trivial
      (fun event _ result _ => parseEvent_judged hnames result event) fun _ _ _ _ _ _ => trivial

/-! ## The document -/

theorem parseRoot_judged (root : XmlNode) (rest : List XmlNode) : Judged (parseRoot (root :: rest))
    [.reports (root.tagName ≠ "experiment"), .reports (root.attr "boot" = none)] := by
  have hboot : (!root.hasAttribute "boot") = true ↔ root.attr "boot" = none := by simp [XmlNode.hasAttribute]
  unfold parseRoot produceErr
  simp only [List.head?_cons, unwrap_some, bind_ok, hboot]
  exact Judged.guard fun _ => Judged.guard fun _ => Judged.ok root

theorem parseRoot_ok {root node : XmlNode} {rest : List XmlNode} (h : parseRoot (root :: rest) = .ok node) :
    node = root := by
  unfold parseRoot produceErr at h
  simp only [List.head?_cons, unwrap_some, bind_ok] at h
  split at h
  · cases h
  · split at h
    · cases h
    · cases h
      rfl

def blocksOf (elements : List XmlNode) : Blocks :=
  ⟨block elements "services", block elements "bridges", block elements "links", block elements "dynamic"⟩

theorem block_eq_none {elements : List XmlNode} {tag : String} :
    block elements tag = none ↔ (elements.map XmlNode.tagName).count tag = 0 := by
  rw [List.count_eq_zero, block, List.find?_eq_none, List.mem_map]
  simp

theorem block_append (pre : List XmlNode) (x : XmlNode) (tag : String) :
    block (pre ++ [x]) tag = (block pre tag).or (if x.tagName = tag then some x else none) := by
  rw [block, List.find?_append, block, List.find?_singleton]
  simp

theorem count_append (pre : List XmlNode) (x : XmlNode) (tag : String) :
    ((pre ++ [x]).map XmlNode.tagName).count tag =
      (pre.map XmlNode.tagName).count tag + if x.tagName = tag then 1 else 0 := by
  rw [List.map_append, List.count_append, List.map_singleton, List.count_singleton]
  simp

theorem add_noPanic (b : Blocks) (node : XmlNode) : NoPanic (b.add node) := by
  unfold Blocks.add produceErr
  split
  case h_5 => exact noPanic_pure b
  all_goals
    split
    · exact noPanic_error.mpr ⟨_, rfl⟩
    · exact noPanic_pure _

theorem add_fresh {pre : List XmlNode} {x : XmlNode}
    (h : x.tagName ∈ blockTags → block pre x.tagName = none) :
    (blocksOf pre).add x = .ok (blocksOf (pre ++ [x])) := by
  unfold Blocks.add
  split
  case h_5 hservices hbridges hlinks hdynamic =>
    simp only [blocksOf, block_append, if_neg hservices, if_neg hbridges, if_neg hlinks, if_neg hdynamic,
      Option.or_none]
    rfl
  all_goals
    rename_i htag
    have hnone := h (by rw [htag]; decide)
    rw [htag] at hnone
    simp [blocksOf, block_append, htag, hnone]
    rfl

theorem add_again {pre : List XmlNode} {x : XmlNode} (htag : x.tagName ∈ blockTags)
    (h : block pre x.tagName ≠ none) : ∃ message, (blocksOf pre).add x = .error (.err message) := by
  rw [← Option.isSome_iff_ne_none] at h
  unfold Blocks.add produceErr
  split
  case h_5 hservices hbridges hlinks hdynamic =>
    simp only [blockTags, List.mem_cons, List.not_mem_nil, or_false] at htag
    rcases htag with htag | htag | htag | htag
    · exact absurd htag hservices
    · exact absurd htag hbridges
    · exact absurd htag hlinks
    · exact absurd htag hdynamic
  all_goals
    rename_i hkind
    rw [hkind] at h
    exact ⟨_, if_pos h⟩

theorem parseBlocks_ok_iff {root : XmlNode} {b : Blocks} :
    parseBlocks root = .ok b ↔ Once root.elements ∧ b = blocksOf root.elements := by
  unfold parseBlocks
  constructor
  · intro h
    refine And.symm (foldlM_ok_done (fun pre b => b = blocksOf pre ∧ Once pre) ⟨rfl, ?_⟩ ?_ h)
    · simp [Once]
    · rintro pre x post b b' - ⟨rfl, honce⟩ hadd
      have hfresh : x.tagName ∈ blockTags → block pre x.tagName = none := by
        intro htag
        by_contra hagain
        obtain ⟨message, herr⟩ := add_again htag hagain
        rw [herr] at hadd
        cases hadd
      rw [add_fresh hfresh] at hadd
      refine ⟨(Except.ok.inj hadd).symm, fun tag htag => ?_⟩
      rw [count_append]
      split
      · rename_i hx
        subst hx
        rw [block_eq_none.mp (hfresh htag)]
      · exact honce tag htag
  · rintro ⟨honce, rfl⟩
    obtain ⟨b, hb, rfl⟩ :=
      Returns.foldlM (f := Blocks.add) (l := root.elements) (s := ⟨none, none, none, none⟩)
      (fun pre b => b = blocksOf pre) rfl fun pre x post b helements hb => by
        subst hb
        refine ⟨_, add_fresh fun htag => ?_, rfl⟩
        have hcount := honce x.tagName htag
        rw [helements, ← List.singleton_append, ← List.append_assoc, List.map_append, List.count_append,
          count_append, if_pos rfl] at hcount
        rw [block_eq_none]
        omega
    exact hb

theorem parseBlocks_judged (root : XmlNode) :
    Judged (parseBlocks root) [.reports (¬ Once root.elements)] := by
  refine ⟨iff_of_true (noPanic_foldlM add_noPanic _ _) ?_, ?_⟩
  · exact Check.spared_cons.mpr ⟨fun hfatal => hfatal, Or.inr Check.spared_nil⟩
  · simp [parseBlocks_ok_iff, Check.Wrong]

theorem parseDocument_judged {libs : XmlLibraries} {text : String} {root : XmlNode} {rest : List XmlNode}
    (hparse : libs.parse text = some (root :: rest)) : Judged (parseDocument libs text)
      [.reports (root.tagName ≠ "experiment"), .reports (root.attr "boot" = none),
        .reports (¬ Once root.elements)] := by
  unfold parseDocument
  rw [hparse, unwrap_some, bind_ok]
  refine Judged.bind (parseRoot_judged root rest) fun node hnode => ?_
  rw [parseRoot_ok hnode]
  exact parseBlocks_judged root

theorem parseDocument_ok {libs : XmlLibraries} {text : String} {root : XmlNode}
    {rest : List XmlNode} {b : Blocks}
    (hparse : libs.parse text = some (root :: rest)) (h : parseDocument libs text = .ok b) :
    b = blocksOf root.elements := by
  unfold parseDocument at h
  rw [hparse, unwrap_some, bind_ok] at h
  obtain ⟨node, hnode, h⟩ := of_bind_eq_ok h
  rw [parseRoot_ok hnode] at h
  exact (parseBlocks_ok_iff.mp h).2

theorem parseNodes_judged (elements : List XmlNode) (emulId : Uuid) :
    Judged (parseNodes (blocksOf elements) emulId) (.reports (block elements "services" = none) ::
      ((inside elements "services").flatMap serviceChecks ++
      (inside elements "bridges").flatMap bridgeChecks)) := by
  unfold parseNodes produceErr blocksOf inside
  cases hservices : block elements "services" with
  | none => exact Judged.reports rfl _
  | some services =>
    refine Judged.met (by simp [Check.Wrong]) ?_
    refine Judged.bind (parseServices_judged services emulId _) fun nodes _ => ?_
    cases block elements "bridges" with
    | none => exact Judged.ok nodes
    | some bridges => exact parseBridges_judged bridges nodes

theorem lookup_putAll (ps : List (String × Node)) (nodes : NodeMap) (name : String) :
    (putAll nodes ps).lookup name = none ↔ name ∉ ps.map Prod.fst ∧ nodes.lookup name = none := by
  induction ps generalizing nodes with
  | nil => simp [putAll]
  | cons p ps ih =>
    have hput := ih (nodes.put p.1 p.2)
    rw [KeySet.lookup_put] at hput
    rw [putAll, List.foldl_cons, ← putAll, hput, List.map_cons, List.mem_cons]
    by_cases hname : name = p.1 <;> simp [hname]

theorem knows_declared {elements : List XmlNode} {emulId : Uuid} {nodes : NodeMap}
    (h : parseNodes (blocksOf elements) emulId = .ok nodes) : Knows nodes (declared elements) := by
  obtain ⟨ps, qs, he⟩ := parseNodes_ok h
  have hnames : declared elements = (ps ++ qs).map fun p => some p.1 := he.names
  intro name
  rw [he.nodes, lookup_putAll, hnames]
  simp

theorem new_judged (vertices : List Node) : Judged (Network.new vertices .shortestPath) [] := by
  have hlinks : Returns (SymMatrix.newFn vertices.length fun _ _ => (pure none : Run (Option (Link Node))))
      fun _ => True :=
    (SymMatrix.newFn_spec (P := fun _ _ _ => True) fun _ _ _ _ => ⟨none, rfl, trivial⟩).mono fun _
      _ => trivial
  obtain ⟨links, hlinks, -⟩ := hlinks
  unfold Network.new
  rw [hlinks, bind_ok]
  exact Judged.ok _

/-- What `parse_topology` does on a document is read off its checks. -/
theorem parseTopology_judged {libs : XmlLibraries} (hcaptures : Leftmost libs.captures) {text : String}
    {root : XmlNode} {rest : List XmlNode} (hparse : libs.parse text = some (root :: rest)) (it : Iter)
    (emulId : Uuid) : Judged (parseTopology libs it text emulId) (checks libs root) := by
  unfold parseTopology
  refine Judged.bind (parseDocument_judged hparse) fun b hb => ?_
  obtain rfl := parseDocument_ok hparse hb
  refine Judged.bind (parseNodes_judged root.elements emulId) fun nodes hnodes => ?_
  have hnames := knows_declared hnodes
  refine Judged.bind_free (new_judged _) fun net hnet => ?_
  unfold blocksOf inside
  cases hlinks : block root.elements "links" with
  | none => exact Judged.reports rfl _
  | some links =>
    refine Judged.met (by simp [Check.Wrong]) ?_
    refine Judged.bind (parseLinks_judged hcaptures hnames (.new hnet) links) fun net' _ => ?_
    have hall := (parseSchedule_judged hnames (block root.elements "dynamic")).bind
      (f := fun schedule => .ok (net', schedule)) fun schedule _ => Judged.ok _
    rw [List.append_nil] at hall
    exact hall

/-- A well-formed document does not panic exactly where everything that would panic comes after
something that is reported, and it is accepted exactly where nothing is wrong. -/
theorem parseTopology_noPanic_iff {libs : XmlLibraries} (hcaptures : Leftmost libs.captures) {text : String}
    {root : XmlNode} {rest : List XmlNode} (hparse : libs.parse text = some (root :: rest)) (it : Iter)
    (emulId : Uuid) :
    (NoPanic (parseTopology libs it text emulId) ↔ Check.Spared (checks libs root)) ∧
      ((∃ r, parseTopology libs it text emulId = .ok r) ↔ ∀ c ∈ checks libs root, ¬ c.Wrong) :=
  have hjudged := parseTopology_judged hcaptures hparse it emulId
  ⟨hjudged.noPanic, hjudged.returns⟩

theorem parseTopology_noPanic_two :
    ∃ root, twoServices = [root] ∧ NoPanic (parseDemo twoServices) ∧
      Check.Spared (checks (oneDocument twoServices) root) ∧
      ∀ c ∈ checks (oneDocument twoServices) root, ¬ c.Wrong := by
  have hok : Returns (parseDemo twoServices) fun _ => True := by
    decide +kernel
  obtain ⟨r, hr, -⟩ := hok
  have hnoPanic : NoPanic (parseDemo twoServices) := by
    rw [hr]
    exact noPanic_ok r
  have hiff := @parseTopology_noPanic_iff (oneDocument twoServices) searchCaptures_leftmost _ _ []
    (oneDocument_parse twoServices) .inOrder ⟨0⟩
  exact ⟨_, rfl, hnoPanic, hiff.1.mp hnoPanic, hiff.2.mp ⟨r, hr⟩⟩

def document (services links events : List XmlNode) : List XmlNode :=
  [.element "experiment" [("boot", "kollaps")]
    [.element "services" [] services, .element "links" [] links, .element "dynamic" [] events]]

def link (dest latency : String) : XmlNode :=
  .element "link" [("origin", "a"), ("dest", dest), ("latency", latency), ("bandwidth", "10Mbps")] []

/-- A link to a node that is not declared, an event without an action, an address and a latency that
cannot be read, and an empty image. -/
theorem parseTopology_panics :
    parseDemo (document [service "a" "10.0.0.1"] [link "b" "1"] []) = .error .unwrap ∧
      parseDemo (document [service "a" "10.0.0.1"] [] [.element "schedule" [("name", "a")] []]) =
        .error .unwrap ∧
      parseDemo (document [service "a" "10.0.0"] [] []) = .error .unwrap ∧
      parseDemo (document [service "a" "10.0.0.1"] [link "a" "1ms"] []) = .error .unwrap ∧
      parseDemo (document
          [.element "service" [("kind", "container"), ("image", ""), ("command", "run")] []] [] []) =
        .error (.stop "[CONTAINER CONFIG]: You must specify a container image, or use None") ∧
      ¬ ∀ root rest, NoPanic (parseDemo (root :: rest)) := by
  have hlink : parseDemo (document [service "a" "10.0.0.1"] [link "b" "1"] []) = .error .unwrap := by
    decide +kernel
  refine ⟨hlink, by decide +kernel, by decide +kernel, by decide +kernel, by decide +kernel, fun h => ?_⟩
  obtain ⟨message, he⟩ := h _ [] _ hlink
  cases he

end Xmlgraphparser

end Kollaps
