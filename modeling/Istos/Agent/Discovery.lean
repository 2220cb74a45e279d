import Istos.Agent.Message
import Istos.Communication.Persist
import Istos.Data.First
import Istos.Security.Authz

/-!
# Tools from discovery

Every service of the fabric answers with a capability manifest, and an agent builds its catalogue
from the manifests: one tool for each `@handle` prefix.  A manifest is what another node has sent,
so any field of it may be missing or of another type.
-/

namespace Istos

/-- A capability manifest: the items of a dictionary. -/
abbrev Manifest := List (String × Json)

/-- A `MeshTool` with the fields of its schema. -/
structure RemoteTool extends MeshTool where
  /-- `prefix` -/
  key : String
  description : String
  parameters : Json

/-- `approval=` of a value that a manifest may hold. -/
def ApprovalFlag.ofJson : Json → ApprovalFlag
  | .str text => .reason text
  | j => .flag j.truthy

/-- `manifest.get("capabilities") or []`, or nothing where Python cannot iterate over it.  The keys
of a dictionary and the characters of a text are no entries. -/
def Manifest.capabilities (manifest : Manifest) : Option (List Json) :=
  match manifest.lookup "capabilities" with
  | none => some []
  | some (.arr entries) => some entries
  | some (.str _) | some (.obj _) => some []
  | some j => if j.truthy then none else some []

/-- The prefix of an entry that becomes a tool. -/
def handlePrefix (prefixes : Option (List String)) (entry : Json) : Option String :=
  if entry.hasKind "handle" then
    match entry.get? "prefix" with
    | some (.str key) =>
      if startsWith key ".istos/" then none
      else if prefixes.all fun allow => allow.contains key then some key
      else none
    | _ => none
  else none

/-- `value or default`. -/
def orElse (value : Option Json) (default : Json) : Json :=
  match value with
  | some j => if j.truthy then j else default
  | none => default

/-- `(entry.get("description") or "").strip() or tool_name(prefix)`, or nothing where the
description has no `strip`. -/
def describe (key : String) (entry : Json) : Option String :=
  match orElse (entry.get? "description") (.str "") with
  | .str text => if strip text = [] then some (toolName key) else some (String.ofList (strip text))
  | _ => none

/-- `entry.get("approval")` is truthy: the owner marked the handle with an approval. -/
def marked (entry : Json) : Bool := (entry.get? "approval").any Json.truthy

/-- The tool of an entry. -/
def remoteTool (approval : Option (List String)) (key : String) (entry : Json) :
    Option RemoteTool :=
  (describe key entry).map fun description =>
    { name := toolName key
      approval := .ofJson <|
        orElse (entry.get? "approval") (.bool ((approval.getD []).contains key))
      key
      description
      parameters := orElse (entry.get? "params_schema")
        (.obj [("type", .str "object"), ("properties", .obj [])]) }

/-- The entries that become tools, with their prefixes. -/
def Manifest.handles (prefixes : Option (List String)) (entries : List Json) :
    List (String × Json) :=
  entries.filterMap fun entry => (handlePrefix prefixes entry).map (·, entry)

/-- `tools_from_manifest`. -/
def toolsFromManifest (prefixes approval : Option (List String)) (manifest : Manifest) :
    Option (List RemoteTool) :=
  manifest.capabilities.bind fun entries =>
    (Manifest.handles prefixes entries).mapM fun x => remoteTool approval x.1 x.2

/-- `sorted(manifests.items())` without the services that the caller does not want. -/
def wantedManifests (services : Option (List String)) (manifests : List (String × Manifest)) :
    List (String × Manifest) :=
  (Cursor.sort manifests).filter fun x => services.all fun wanted => wanted.contains x.1

/-- `tools_from_discovery`, on what `discover_capabilities` has returned: the manifest of each
service.  `none` is an exception. -/
def toolsFromDiscovery (manifests : List (String × Manifest))
    (services prefixes approval : Option (List String)) : Option (List RemoteTool) :=
  ((wantedManifests services manifests).mapM fun x => toolsFromManifest prefixes approval x.2).map
    fun found => First.kept RemoteTool.key found.flatten

end Istos
