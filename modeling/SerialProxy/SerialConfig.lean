import SerialProxy.SerialNodes

/-!
# Serial configuration entries

The callback that the configuration parser calls for each entry, and the
loading of a list of entries. A name that does not fit its buffer ends the
process with a message.
-/

namespace SerialProxy.SerialConfig

open FaultPrograms CText SerialState SerialNodes

/-- The arguments of one call of the configuration callback. -/
structure ConfigEntry where
  /-- Section, which is the path of a device. -/
  sectionName : CString
  /-- Key. -/
  name : CString
  /-- Value. -/
  value : CString
  deriving DecidableEq

/-- `N_MATCH("baudrate")`. -/
def ConfigEntry.isBaudrate (e : ConfigEntry) : Bool := strcaseEq e.name "baudrate".toList

/-- `N_MATCH("virtuals")`. -/
def ConfigEntry.isVirtuals (e : ConfigEntry) : Bool := strcaseEq e.name "virtuals".toList

/-- `N_MATCH("writer")`. -/
def ConfigEntry.isWriter (e : ConfigEntry) : Bool := strcaseEq e.name "writer".toList

/-- The node of a section, created and added when it is not there yet. -/
def sectionNode (sectionName : CString) : Prog NodePtr := do
  match ← serialGetNode sectionName with
  | some node => pure node
  | none =>
    let node ← serialCreateNode sectionName serialFlagMaster
    serialAddNode node
    pure node

/-- `serialVirtualName`, ending the process when the name does not fit. -/
def virtualNameOrExit (sectionName suffix : CString) : Prog CString :=
  match serialVirtualName sectionName suffix pathMax with
  | some name => pure name
  | none => do
    emit (.stderr ("Can't create virtual name: ".toList++suffix++"\n".toList))
    throw (.exit 1)

/-- One turn of the token loop of the key `virtuals`. -/
def addVirtual (sectionName : CString) (node : NodePtr) (token : CString) : Prog Unit := do
  let name ← virtualNameOrExit sectionName token
  match ← serialGetVirtualNode node name with
  | some _ => pure ()
  | none =>
    let vnode ← serialCreateNode name serialFlagVirtual
    serialAddVirtualNode node vnode

/-- The key `writer`. -/
def setWriter (sectionName : CString) (node : NodePtr) (value : CString) : Prog Unit := do
  let name ← virtualNameOrExit sectionName value
  match ← serialGetVirtualNode node name with
  | some vnode => modifyNode vnode fun n => {n with flags := n.flags ||| serialFlagWriter}
  | none => pure ()

/-- `_serialConfigHandler`; false for an entry that is not valid. -/
def serialConfigHandler (e : ConfigEntry) : Prog Bool := do
  let node ← sectionNode e.sectionName
  if e.isBaudrate then
    modifyNode node fun n => {n with baudrate := atoi e.value}
    pure true
  else if e.isVirtuals then
    (strtokSpace e.value).forM (addVirtual e.sectionName node)
    pure true
  else if e.isWriter then
    setWriter e.sectionName node e.value
    pure true
  else
    pure false

/-- Hand a list of entries to the callback, whose results the parser only counts. -/
def loadEntries (entries : List ConfigEntry) : Prog Unit :=
  entries.forM fun e => do
    let _ ← serialConfigHandler e
    pure ()

end SerialProxy.SerialConfig
