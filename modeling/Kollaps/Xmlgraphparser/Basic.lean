import Kollaps.Xmlgraphparser.Text

/-!
# The parser of the topologies

`Document::parse` and the regular expression of the bandwidths come from libraries: they are
parameters here. A document is the list of the nodes at its top.
-/

namespace Kollaps

open Run

inductive XmlNode where
  | element (tag : String) (attributes : List (String × String)) (children : List XmlNode)
  /-- A text, a comment or a processing instruction. -/
  | other

namespace XmlNode

def isElement : XmlNode → Bool
  | element _ _ _ => true
  | other => false

def tagName : XmlNode → String
  | element tag _ _ => tag
  | other => ""

def attr (node : XmlNode) (name : String) : Option String :=
  match node with
  | element _ attributes _ => (attributes.find? fun a => a.1 = name).map Prod.snd
  | other => none

def hasAttribute (node : XmlNode) (name : String) : Bool := (node.attr name).isSome

def children : XmlNode → List XmlNode
  | element _ _ children => children
  | other => []

/-- `for x in node.children()`, where what is not an element is skipped. -/
def elements (node : XmlNode) : List XmlNode := node.children.filter isElement

end XmlNode

abbrev NodeMap := KeyMap String Node

/-- `Document::parse`, and the captures of `([0-9]+)([KMG])bps`. -/
structure XmlLibraries where
  parse : String → Option (List XmlNode)
  captures : String → Option (String × String)

def produceErr {α : Type} (text : String) : Run α := .error (.err text)

/-- The names and the command must not be empty. -/
def ContainerConfig.new (name : String) (id : Option String)
    (imageCommand : Option (String × Option String)) : Run ContainerConfig :=
  if imageCommand.any fun p => p.1.isEmpty then
    .error (.stop "[CONTAINER CONFIG]: You must specify a container image, or use None")
  else if imageCommand.any fun p => p.2.any String.isEmpty then
    .error (.stop "[CONTAINER CONFIG]: You must specify a container command, or use None")
  else if name.isEmpty then
    .error (.stop "[CONTAINER CONFIG]: You must give a name to the container")
  else pure { name, id, imageCommand }

def Application.build (ipApp : Option IpAddr) (hostOpt : Option ClusterNodeInfo) (name : String)
    (kind : ApplicationKind) : Application :=
  { ipApp, hostOpt, name, kind, indexOpt := none }

namespace Xmlgraphparser

def produceNameForContainer (emulId : Uuid) (nodeId : Nat) : String :=
  s!"kollaps_{Text.uuid emulId}_{nodeId}"

/-! ## Services and bridges -/

def containerKind (emulId : Uuid) (currentNode : Nat) (service : XmlNode) : Run ApplicationKind :=
  if !service.hasAttribute "image" && !service.hasAttribute "command" && service.hasAttribute "name" &&
      service.hasAttribute "ip" then
    produceErr "Attaching to an existing container is not supported for now"
  else
    match service.attr "image", service.attr "command" with
    | some image, some command => do
      let config ← ContainerConfig.new (produceNameForContainer emulId currentNode) none
        (some (image, some command))
      pure (.container config)
    | _, _ =>
      produceErr ("A Container Service must have no image+command attribute if attaching to existing one, " ++
        "or have image+command if we must deploy one.")

def serviceKind (emulId : Uuid) (currentNode : Nat) (service : XmlNode) : Run ApplicationKind :=
  match service.attr "kind" with
  | none => produceErr "No \"kind\" attribute detected on the service!"
  | some kind =>
    match Text.toUppercase kind with
    | "CONTAINER" => containerKind emulId currentNode service
    | "BAREMETAL" => pure .bareMetal
    | _ => produceErr "Kind can be either baremetal | container"

def serviceName (service : XmlNode) : Run String :=
  match service.attr "name" with
  | some name => pure name
  | none => produceErr "A service must have a name"

/-- No address is no error, but a text that is not an address is a panic. -/
def serviceIp (service : XmlNode) : Run (Option IpAddr) :=
  match service.attr "ip" with
  | some ip => some <$> unwrap (Text.ipAddr ip)
  | none => pure none

/-- One round of `parse_services`: the nodes so far and the next id. -/
def parseService (emulId : Uuid) (s : NodeMap × Nat) (service : XmlNode) : Run (NodeMap × Nat) :=
  if service.tagName ≠ "service" then
    produceErr s!"Invalid tag inside <services> {service.tagName}"
  else do
    let kind ← serviceKind emulId s.2 service
    let name ← serviceName service
    let ip ← serviceIp service
    pure (s.1.put name (.app s.2 (Application.build ip none name kind)), s.2 + 1)

def parseServices (services : XmlNode) (emulId : Uuid) (nodes : NodeMap) : Run NodeMap := do
  let (nodes, _) ← services.elements.foldlM (parseService emulId) (nodes, nodes.len)
  pure nodes

def parseBridge (s : NodeMap × Nat) (bridge : XmlNode) : Run (NodeMap × Nat) :=
  if bridge.tagName ≠ "bridge" then
    produceErr s!"Invalid tag inside <bridges>: {bridge.tagName}"
  else
    match bridge.attr "name" with
    | none => produceErr "A bridge needs to have a name"
    | some name => pure (s.1.put name (.bridge s.2), s.2 + 1)

def parseBridges (bridges : XmlNode) (nodes : NodeMap) : Run NodeMap := do
  let (nodes, _) ← bridges.elements.foldlM parseBridge (nodes, nodes.len)
  pure nodes

/-! ## Links -/

def parseBandwidth (libs : XmlLibraries) (bandwidth : String) : Run F32 :=
  match libs.captures bandwidth with
  | some (digits, multiplier) => do
    let base ← unwrap (Text.float .binary32 digits)
    let kilo : F32 := .round _ 1024
    pure (if multiplier = "M" then base * kilo
      else if multiplier = "G" then base * kilo * kilo else base)
  | none => .error (.err "cannot parse the bandwidth")

/-- An attribute with a number, or else zero. -/
def floatAttribute (link : XmlNode) (name : String) : Run F32 :=
  match link.attr name with
  | some text => unwrap (Text.float .binary32 text)
  | none => pure 0

def parseLink (libs : XmlLibraries) (nameToNode : NodeMap) (network : Network Node) (link : XmlNode) :
    Run (Network Node) :=
  if link.tagName ≠ "link" then produceErr s!"Invalid tag inside <link> {link.tagName}"
  else
    match link.attr "origin", link.attr "dest", link.attr "bandwidth" with
    | some origin, some dest, some bandwidth => do
      let source ← unwrap (nameToNode.lookup origin)
      let destination ← unwrap (nameToNode.lookup dest)
      let jitter ← floatAttribute link "jitter"
      let latency ← floatAttribute link "latency"
      let drop ← floatAttribute link "drop"
      let bandwidth ← parseBandwidth libs bandwidth
      network.addEdgeWithProps source destination (bandwidth.asUnsigned u32Max) (latency, jitter) drop
    | _, _, _ => produceErr "Incomplete network description"

def parseLinks (libs : XmlLibraries) (links : XmlNode) (nameToNode : NodeMap) (network : Network Node) :
    Run (Network Node) :=
  links.elements.foldlM (parseLink libs nameToNode) network

/-! ## The schedule -/

def eventTime (event : XmlNode) : Run Duration :=
  match event.attr "time" with
  | some text => do
    let time ← unwrap (Text.float .binary64 text)
    if time.isNegative then produceErr "time attribute must be a positive number"
    else pure ⟨time.asUnsigned Text.u64Max, 0⟩
  | none => pure ⟨0, 0⟩

def eventAction (text : String) : Run EventAction :=
  match Text.toUppercase text with
  | "JOIN" => pure .join
  | "LEAVE" => pure .quit
  | "CRASH" => pure .crash
  | _ => produceErr "Event action not recognized"

def parseEvent (nameToService : NodeMap) (result : List EmulationEvent) (event : XmlNode) :
    Run (List EmulationEvent) :=
  if event.tagName ≠ "schedule" then
    produceErr s!"Only <schedule> is allowed inside <dynamic> {event.tagName} "
  else do
    let time ← eventTime event
    if !event.hasAttribute "name" && !event.hasAttribute "action" then
      produceErr "Event must have an associated name and action"
    else
      let nodeName ← unwrap (event.attr "name")
      let action ← eventAction (← unwrap (event.attr "action"))
      match nameToService.lookup nodeName with
      | none => produceErr s!"The node {nodeName} found in the scheduled event is not in the services."
      | some node => pure (result ++ [{ appId := node.id, time, action }])

def parseSchedule (nameToService : NodeMap) (dynamic : Option XmlNode) : Run (List EmulationEvent) :=
  match dynamic with
  | none => pure []
  | some dynamic => dynamic.elements.foldlM (parseEvent nameToService) []

/-! ## The document -/

structure Blocks where
  services : Option XmlNode
  bridges : Option XmlNode
  links : Option XmlNode
  dynamic : Option XmlNode

/-- A block is kept when it is the first of its kind. -/
def Blocks.add (b : Blocks) (node : XmlNode) : Run Blocks :=
  match node.tagName with
  | "services" =>
    if b.services.isSome then produceErr "Only one <services> block is allowed."
    else pure { b with services := some node }
  | "bridges" =>
    if b.bridges.isSome then produceErr "Only one <bridges> block is allowed."
    else pure { b with bridges := some node }
  | "links" =>
    if b.links.isSome then produceErr "Only one <links> block is allowed."
    else pure { b with links := some node }
  | "dynamic" =>
    if b.dynamic.isSome then produceErr "Only one <dynamic> block is allowed."
    else pure { b with dynamic := some node }
  | _ => pure b

def parseBlocks (root : XmlNode) : Run Blocks :=
  root.elements.foldlM Blocks.add ⟨none, none, none, none⟩

def parseRoot (doc : List XmlNode) : Run XmlNode := do
  let root ← unwrap doc.head?
  if root.tagName ≠ "experiment" then
    produceErr "Not a valid Kollaps topology file, root is not <experiment>"
  else if !root.hasAttribute "boot" then
    produceErr "<experiment boot = > The experiment needs a valid boostrapper image name"
  else pure root

/-- The nodes of all services and bridges, by their names. -/
def parseNodes (blocks : Blocks) (emulId : Uuid) : Run NodeMap :=
  match blocks.services with
  | none => produceErr "No services declared in topology"
  | some services => do
    let nodes ← parseServices services emulId KeySet.empty
    match blocks.bridges with
    | some bridges => parseBridges bridges nodes
    | none => pure nodes

/-- The first part of `parse_topology`: the blocks of the document. -/
def parseDocument (libs : XmlLibraries) (documentText : String) : Run Blocks := do
  let doc ← unwrap (libs.parse documentText)
  let root ← parseRoot doc
  parseBlocks root

def parseTopology (libs : XmlLibraries) (it : Iter) (documentText : String) (emulId : Uuid) :
    Run (Network Node × List EmulationEvent) := do
  let blocks ← parseDocument libs documentText
  let nodesMap ← parseNodes blocks emulId
  -- The map gives its values in any order.
  let vertices := (it.order nodesMap.elems).map Prod.snd
  let net ← Network.new vertices .shortestPath
  match blocks.links with
  | none => produceErr "No links declared in topology"
  | some links => do
    let net ← parseLinks libs links nodesMap net
    let schedule ← parseSchedule nodesMap blocks.dynamic
    pure (net, schedule)

end Xmlgraphparser

end Kollaps
