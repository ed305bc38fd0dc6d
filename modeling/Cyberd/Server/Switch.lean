import Cyberd.Connection.Names
import Cyberd.Daemon.Configuration
import Cyberd.Server.Descriptors

/-!
# The socket switch and the main loop

The functions of `socket_switch.c`, `socket_endpoint_node.c` and `socket_connection_node.c`
with the descriptors and the paths that they act on, and the main loop that operates them.
The system answers as it wants: a socket that is created or accepted takes any descriptor
below `FD_SETSIZE` that is not open.
-/

namespace Cyberd

open Library

/-- `FD_SETSIZE` -/
def fdSetSize : Nat := 1024

/-- `SOCKADDR_UN_MAXLEN` -/
def sockaddrUnMaxlen : Nat := 108

/-- `struct socket_node_class`, with what the nodes of the class hold. -/
inductive SocketNodeClass
  /-- `struct socket_endpoint_node`, with its capabilities. -/
  | endpoint (capabilities : Capset)
  /-- `struct socket_connection_node`, with its parser. -/
  | connection (parser : Parser)
  deriving DecidableEq, Repr

/-- `struct socket_node` -/
structure SocketNode where
  /-- File descriptor of the node. -/
  fd : Fd
  /-- Class of the node. -/
  nodeClass : SocketNodeClass
  deriving DecidableEq, Repr

/-- A call of `fork(2)` for a daemon, with the descriptors that its child is given. -/
structure Inheritance where
  /-- The call. -/
  fork : Fork
  /-- The descriptors that are open. -/
  fds : Descriptors

/-- A call of `bind(2)`. -/
structure Bind where
  /-- The path to bind. -/
  path : Name
  /-- The file was already bound. -/
  existed : Bool
  deriving DecidableEq, Repr

/-- The answers to `socket_endpoint_node_create`. -/
structure CreateAnswer where
  /-- `malloc(3)` succeeds. -/
  malloc : Bool
  /-- The descriptor that `socket(2)` takes, one that is not available is a failure. -/
  socket : Option Fd
  /-- `bind(2)` succeeds if the file does not exist. -/
  bind : Bool
  /-- `listen(2)` succeeds. -/
  listen : Bool

/-- The answers to the operation of a socket node. -/
structure SocketAnswer where
  /-- The descriptor that `accept(2)` takes, one that is not available is a failure. -/
  accept : Option Fd
  /-- `fcntl(2)` succeeds. -/
  fcntl : Bool
  /-- `malloc(3)` succeeds. -/
  malloc : Bool
  /-- The memory from the buffer of `read(2)` on and how many bytes it has read, none when
  it fails. -/
  read : Option (List UInt8 × Nat)
  /-- The answers to the endpoint creations, in order. -/
  creates : List CreateAnswer

/-- The answers to the opening of a directory and of its files: the descriptors that they
take, one that is already open is a failure. -/
structure OpenAnswer where
  /-- The one of `opendir(3)`. -/
  dirfd : Option Fd
  /-- The ones of `openat(2)`. -/
  fds : Name → Option Fd

/-- The state of the program. -/
structure Server where
  /-- The daemons and the processes. -/
  world : World
  /-- The open descriptors. -/
  fds : Descriptors
  /-- The file that a path denotes. -/
  resolve : Name → Name
  /-- The files that are bound in the endpoints directory. -/
  paths : List Name
  /-- The allocated socket nodes. -/
  nodes : Addr → Option SocketNode
  /-- The address of the next node, an address is not used again. -/
  nextNode : Addr
  /-- `socket_switch.snodes` -/
  snodes : TreeNode Addr
  /-- `socket_switch.activeset` -/
  activeset : Fd → Bool
  /-- `socket_switch.readset` -/
  readset : Fd → Bool
  /-- `socket_endpoints_path` -/
  socketEndpointsPath : Name
  /-- The nodes that were operated, with the descriptors that they were found by. -/
  operated : List (Fd × Addr)
  /-- The calls of `fork(2)` for daemons. -/
  inherited : List Inheritance
  /-- The calls of `bind(2)`. -/
  binds : List Bind

/-- `FD_SET` -/
def fdSet (fd : Fd) (set : Fd → Bool) : Except Trap (Fd → Bool) :=
  if fd < fdSetSize then .ok fun n => n == fd || set n else .error .outOfBounds

/-- `FD_CLR` -/
def fdClr (fd : Fd) (set : Fd → Bool) : Except Trap (Fd → Bool) :=
  if fd < fdSetSize then .ok fun n => n != fd && set n else .error .outOfBounds

namespace Server

/-- The descriptor is not open. -/
def Free (s : Server) (fd : Fd) : Prop := s.fds fd = none

instance (s : Server) (fd : Fd) : Decidable (s.Free fd) :=
  inferInstanceAs (Decidable (s.fds fd = none))

/-- The descriptor that a socket takes, `FD_SETSIZE` being the limit of the process. -/
def takeSocket (s : Server) (fd : Option Fd) : Option Fd :=
  fd.filter fun fd => fd < fdSetSize ∧ s.Free fd

/-- The descriptor that another file takes. -/
def takeFile (s : Server) (fd : Option Fd) : Option Fd := fd.filter fun fd => s.Free fd

/-- A descriptor is opened, or replaced. -/
def install (s : Server) (fd : Fd) (descriptor : Descriptor) : Server :=
  { s with fds := s.fds.install fd descriptor }

/-- `close(2)` -/
def close (s : Server) (fd : Fd) : Server := { s with fds := s.fds.close fd }

/-- `unlink(2)` -/
def unlink (s : Server) (path : Name) : Server :=
  { s with paths := s.paths.filter fun file => file ≠ s.resolve path }

/-- The file of a path is bound. -/
def pathExists (s : Server) (path : Name) : Bool := s.resolve path ∈ s.paths

/-- The path that `getsockname(2)` gives, if the socket is bound. -/
def getsockname (s : Server) (fd : Fd) : Option Name :=
  match s.fds fd with
  | some ⟨.socket path, _⟩ => path
  | _ => none

/-- The dereference of a socket node. -/
def readNode (s : Server) (a : Addr) : Except Trap SocketNode :=
  match s.nodes a with
  | some node => .ok node
  | none => .error .badPointer

/-- The dereference of every socket node of the tree. -/
def readNodes (s : Server) : Except Trap Unit :=
  if ∀ a ∈ s.snodes.toList, (s.nodes a).isSome then .ok () else .error .badPointer

/-- The store of a socket node. -/
def writeNode (s : Server) (a : Addr) (node : SocketNode) : Server :=
  { s with nodes := fun b => if b = a then some node else s.nodes b }

/-- `malloc(3)` of a socket node whose fields are then initialized. -/
def mallocNode (s : Server) (node : SocketNode) : Server :=
  { s.writeNode s.nextNode node with nextNode := s.nextNode + 1 }

/-- `free(3)` of a socket node. -/
def freeNode (s : Server) (a : Addr) : Server :=
  { s with nodes := fun b => if b = a then none else s.nodes b }

/-- The index of a node in the tree. -/
def nodeFd (s : Server) (a : Addr) : Int := ((s.nodes a).map fun node => (node.fd : Int)).getD 0

/-- The daemons and the processes change, while children are given the open descriptors. -/
def record (s : Server) (w : World) : Server :=
  { s with
    world := w
    inherited := s.inherited ++
      (w.forks.drop s.world.forks.length).map fun fork => Inheritance.mk fork s.fds }

/-- `socket_switch_insert` -/
def socketSwitchInsert (a : Addr) (s : Server) : Except Trap Server := do
  let snode ← s.readNode a
  let activeset ← fdSet snode.fd s.activeset
  s.readNodes
  let snodes ← treeInsert compareBySub s.nodeFd a s.snodes
  return { s with activeset := activeset, snodes := snodes }

/-- `socket_endpoint_node_destroy` -/
def socketEndpointNodeDestroy (a : Addr) (fd : Fd) (s : Server) : Server :=
  match s.getsockname fd with
  | some path => ((s.unlink path).close fd).freeNode a
  | none => (s.close fd).freeNode a

/-- `socket_connection_node_destroy` -/
def socketConnectionNodeDestroy (a : Addr) (fd : Fd) (s : Server) : Server :=
  (s.close fd).freeNode a

/-- `snode->class->destroy(snode)` -/
def socketNodeDestroy (a : Addr) (s : Server) : Except Trap Server := do
  let snode ← s.readNode a
  match snode.nodeClass with
  | .endpoint _ => return socketEndpointNodeDestroy a snode.fd s
  | .connection _ => return socketConnectionNodeDestroy a snode.fd s

/-- `socket_switch_remove` -/
def socketSwitchRemove (a : Addr) (s : Server) : Except Trap Server := do
  let snode ← s.readNode a
  s.readNodes
  let removal ← treeRemove compareBySub s.nodeFd snode.fd s.snodes
  if removal.element ≠ some a then .error .assertion
  else
    let activeset ← fdClr snode.fd s.activeset
    socketNodeDestroy a { s with activeset := activeset, snodes := removal.root }

/-- `socket_endpoint_node_create`, the node if it is successful. -/
def socketEndpointNodeCreate (answer : CreateAnswer) (name : Name) (capabilities : Capset)
    (s : Server) : Option Addr × Server :=
  if answer.malloc = false then (none, s)
  else
    match s.takeSocket answer.socket with
    | none => (none, s)
    | some fd =>
      let s := s.install fd ⟨.socket none, true⟩
      let path := endpointPath s.socketEndpointsPath name
      if sockaddrUnMaxlen ≤ path.length then (none, s.close fd)
      else
        let existed := s.pathExists path
        let s := { s with binds := s.binds ++ [Bind.mk path existed] }
        if answer.bind = false ∨ existed = true then (none, (s.unlink path).close fd)
        else
          let s := { s.install fd ⟨.socket (some path), true⟩ with
            paths := s.resolve path :: s.paths }
          if answer.listen = false then (none, (s.unlink path).close fd)
          else (some s.nextNode, s.mallocNode ⟨fd, .endpoint capabilities⟩)

/-- `socket_endpoint_node_operate` -/
def socketEndpointNodeOperate (capabilities : Capset) (answer : SocketAnswer) (s : Server) :
    Except Trap Server :=
  match s.takeSocket answer.accept with
  | none => .ok s
  | some fd =>
    let s := s.install fd ⟨.connection, false⟩
    if answer.fcntl = false then .ok (s.close fd)
    else
      let s := s.install fd ⟨.connection, true⟩
      if answer.malloc = false then .ok (s.close fd)
      else
        socketSwitchInsert s.nextNode
          (s.mallocNode ⟨fd, .connection (connectionParser capabilities)⟩)

/-- The action of a parser, with the answers that are left to the endpoint creations. -/
def perform (host : Host) (t : List CreateAnswer × Server) (action : Action) :
    Except Trap (List CreateAnswer × Server) :=
  match action with
  | .endpointCreate name capabilities =>
    let answer := t.1.headD ⟨false, none, false, false⟩
    match socketEndpointNodeCreate answer name capabilities t.2 with
    | (none, s) => .ok (t.1.tail, s)
    | (some snode, s) => do
      let s ← socketSwitchInsert snode s
      return (t.1.tail, s)
  | .daemon action name => do
    let w ← t.2.world.step host (.command action name)
    return (t.1, t.2.record w)
  | .queueReboot _ => .ok t

/-- `parser_feed` on the connection of a node, with the actions that it performs. -/
def parserFeed (platform : Platform) (host : Host) (a : Addr) (parser : Parser)
    (memory : List UInt8) (count : Nat) (creates : List CreateAnswer) (s : Server) :
    Except Trap Server := do
  let feed := Cyberd.parserFeed platform parser memory count
  let (_, s) ← feed.1.actions.foldlM (perform host) (creates, s)
  let snode ← s.readNode a
  match feed.2 with
  | .trapped trap => .error trap
  | .returned | .running =>
    return s.writeNode a { snode with nodeClass := .connection feed.1.parser }

/-- `socket_connection_node_operate` -/
def socketConnectionNodeOperate (platform : Platform) (host : Host) (a : Addr) (parser : Parser)
    (answer : SocketAnswer) (s : Server) : Except Trap Server :=
  match answer.read with
  | none => socketSwitchRemove a s
  | some (memory, count) =>
    if count = 0 then socketSwitchRemove a s
    else parserFeed platform host a parser memory count answer.creates s

/-- `socket_switch_prepare` -/
def socketSwitchPrepare (s : Server) : Except Trap (Nat × Server) := do
  let s := { s with readset := s.activeset }
  match treeLast s.snodes with
  | none => return (0, s)
  | some a =>
    let snode ← s.readNode a
    return (snode.fd + 1, s)

/-- `pselect(2)` on the descriptors that are ready: how many there are, and their set. -/
def pselect (nfds : Nat) (ready : Fd → Bool) (s : Server) : Nat × Server :=
  let readset : Fd → Bool := fun fd => decide (fd < nfds) && s.readset fd && ready fd
  (((List.range fdSetSize).filter readset).length, { s with readset := readset })

/-- `socket_switch_find` -/
def socketSwitchFind (fd : Fd) (s : Server) : Except Trap (Option Addr) := do
  s.readNodes
  return treeFind compareBySub s.nodeFd fd s.snodes

/-- The operation of the node that is found for a descriptor. -/
def socketNodeOperate (platform : Platform) (host : Host) (answers : Fd → SocketAnswer) (fd : Fd)
    (s : Server) : Except Trap Server := do
  match ← socketSwitchFind fd s with
  | none => .error .badPointer
  | some a =>
    let snode ← s.readNode a
    let s := { s with operated := s.operated ++ [(fd, a)] }
    match snode.nodeClass with
    | .endpoint capabilities => socketEndpointNodeOperate capabilities (answers fd) s
    | .connection parser => socketConnectionNodeOperate platform host a parser (answers fd) s

/-- The loop of `socket_switch_operate` from a descriptor on. -/
def socketSwitchOperateFrom (platform : Platform) (host : Host) (answers : Fd → SocketAnswer) :
    List Fd → Nat → Server → Except Trap Server
  | [], _, s => .ok s
  | fd :: fds, nfds, s =>
    if nfds = 0 then .ok s
    else if s.readset fd then do
      let s ← socketNodeOperate platform host answers fd s
      socketSwitchOperateFrom platform host answers fds (nfds - 1) s
    else socketSwitchOperateFrom platform host answers fds nfds s

/-- `socket_switch_operate` -/
def socketSwitchOperate (platform : Platform) (host : Host) (answers : Fd → SocketAnswer)
    (nfds : Nat) (s : Server) : Except Trap Server :=
  socketSwitchOperateFrom platform host answers (List.range fdSetSize) nfds s

/-- One round of the main loop, when descriptors are ready. -/
def round (platform : Platform) (host : Host) (ready : Fd → Bool) (answers : Fd → SocketAnswer)
    (s : Server) : Except Trap Server := do
  let (fds, s) ← s.socketSwitchPrepare
  let (fds, s) := s.pselect fds ready
  socketSwitchOperate platform host answers fds s

/-- The body of the loop of `configuration_load`, with the open file. -/
def configurationLoadEntry (host : Host) (answer : OpenAnswer) (s : Server) (entry : DirEntry) :
    Except Trap Server :=
  if entry.hidden then .ok s
  else
    match entry.filep, s.takeFile (answer.fds entry.name) with
    | some filep, some fd => do
      let s := s.install fd ⟨.configuration entry.name, false⟩
      let w ← configurationLoadDaemon host entry.name filep s.world
      return (s.record w).close fd
    | _, _ => .ok s

/-- `configuration_load`, with the open directory. -/
def configurationLoad (host : Host) (dirp : Option Directory) (answer : OpenAnswer) (s : Server) :
    Except Trap Server :=
  match dirp, s.takeFile answer.dirfd with
  | some dir, some fd => do
    let s := s.install fd ⟨.directory, true⟩
    let s ← dir.read.foldlM (configurationLoadEntry host answer) s
    return s.close fd
  | _, _ => .ok s

/-- The body of the loop of `configuration_reload`, with the open file. -/
def configurationReloadEntry (host : Host) (answer : OpenAnswer) (t : TreeNode Addr × Server)
    (entry : DirEntry) : Except Trap (TreeNode Addr × Server) :=
  if entry.hidden then .ok t
  else
    match entry.filep, t.2.takeFile (answer.fds entry.name) with
    | some filep, some fd => do
      let s := t.2.install fd ⟨.configuration entry.name, false⟩
      let (olddaemons, w) ← configurationReloadDaemon host entry.name filep t.1 s.world
      return (olddaemons, (s.record w).close fd)
    | _, _ => .ok t

/-- `configuration_reload`, with the open directory. -/
def configurationReload (host : Host) (dirp : Option Directory) (answer : OpenAnswer)
    (s : Server) : Except Trap Server :=
  match dirp, s.takeFile answer.dirfd with
  | some dir, some fd => do
    let s := s.install fd ⟨.directory, true⟩
    let (olddaemons, s) ← dir.read.foldlM (configurationReloadEntry host answer)
      (s.world.daemons, { s with world := { s.world with daemons := .null } })
    let s := s.close fd
    let w ← treeMutate daemonDestroy olddaemons s.world
    return { s with world := w }
  | _, _ => .ok s

/-- `socket_switch_setup`, the directory is there or `mkdir(2)` creates it. -/
def socketSwitchSetup (path root : Name) (mkdir : Bool) (answer : CreateAnswer) (s : Server) :
    Except Trap Server :=
  let s := { s with socketEndpointsPath := path }
  if mkdir = false then .ok s
  else
    match socketEndpointNodeCreate answer root capsetAll s with
    | (none, s) => .ok s
    | (some snode, s) => socketSwitchInsert snode s

/-- `socket_switch_teardown` -/
def socketSwitchTeardown (s : Server) : Except Trap Server :=
  treeMutate socketNodeDestroy s.snodes s

end Server

/-- What the program starts with. -/
structure ServerBoot where
  /-- The memory, the processes and the directory of the first load. -/
  boot : Boot
  /-- The standard streams that are open. -/
  standard : Fd → Bool
  /-- The descriptor that `openlog(3)` takes, none when it fails. -/
  log : Option Fd
  /-- The file that a path denotes. -/
  resolve : Name → Name
  /-- The files that are already bound in the endpoints directory. -/
  paths : List Name
  /-- `CONFIG_SOCKET_ENDPOINTS_PATH` -/
  path : Name
  /-- `CONFIG_SOCKET_ENDPOINTS_ROOT` -/
  root : Name
  /-- The endpoints directory is there. -/
  mkdir : Bool
  /-- The answers to the creation of the root endpoint. -/
  create : CreateAnswer
  /-- The answers to the first load. -/
  load : OpenAnswer

/-- What the main loop handles. -/
inductive ServerEvent
  /-- Descriptors are ready. -/
  | round (ready : Fd → Bool) (answers : Fd → SocketAnswer)
  /-- `configuration_reload` on the directory as it is. -/
  | reload (dirp : Option Directory) (answer : OpenAnswer)
  /-- `reap_children` on these terminated children. -/
  | reap (infos : List Siginfo)
  /-- A process becomes a child because its parent has exited. -/
  | adopt (pid : Int)

namespace Server

/-- The state once `openlog(3)` was called. -/
def openlog (boot : ServerBoot) : Server where
  world := boot.boot.world
  fds := fun fd =>
    if fd < 3 ∧ boot.standard fd = true then some ⟨.inherited fd, false⟩
    else if boot.log = some fd then some ⟨.log, true⟩
    else none
  resolve := boot.resolve
  paths := boot.paths
  nodes := fun _ => none
  nextNode := 0
  snodes := .null
  activeset := fun _ => false
  readset := fun _ => false
  socketEndpointsPath := []
  operated := []
  inherited := []
  binds := []

/-- `setup` -/
def setup (host : Host) (boot : ServerBoot) : Except Trap Server := do
  let s ← (openlog boot).socketSwitchSetup boot.path boot.root boot.mkdir boot.create
  s.configurationLoad host boot.boot.dirp boot.load

/-- The handling of an event. -/
def step (platform : Platform) (host : Host) (s : Server) : ServerEvent → Except Trap Server
  | .round ready answers => s.round platform host ready answers
  | .reload dirp answer => s.configurationReload host dirp answer
  | .reap infos => do
    let w ← s.world.step host (.reap infos)
    return s.record w
  | .adopt pid => do
    let w ← s.world.step host (.adopt pid)
    return s.record w

/-- The program is set up, then it handles the events in order. -/
def run (platform : Platform) (host : Host) (boot : ServerBoot) (events : List ServerEvent) :
    Except Trap Server := do
  let s ← setup host boot
  events.foldlM (step platform host) s

end Server

end Cyberd
