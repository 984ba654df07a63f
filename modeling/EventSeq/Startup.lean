import EventSeq.Connections
import EventSeq.ModuleRegistry
import EventSeq.Subscriptions
import EventSeq.UinputCreation
import EventSeq.Window

/-!
# From the configuration to the first iteration (`main.c`)

`main` loads the configuration, creates its nodes and its channels and registers the sources for
input, or it prints why it cannot, and exits.
-/

namespace EventSeq

/-! ## The program and its surroundings -/

/-- What the program is started on.  `modules` is the order in which the constructors of the modules
run; `openEvdev` opens for the node with a number, and grabs if it is told to, the device with a file
name; `uninitialised` is what the local variables for strings of the node hold before a lookup; there is
memory for the lists of connectors by `fits`, and for those of subscriptions by `arrays`. -/
structure ProgramPlatform (Setting : Type) extends Platform where
  library : SettingLibrary Setting
  eventCodes : List EventCodeDeclaration
  modules : List NodeType
  openEvdev : Nat → String → Bool → Option Int
  uinputCreated : Nat → Bool
  uninitialised : Nat → Option String
  fits : Nat → Bool
  arrays : ArrayMemory

variable {Setting : Type}

/-- The part of it that loading a configuration depends on. -/
def ProgramPlatform.config (p : ProgramPlatform Setting) : ConfigPlatform Setting :=
  ⟨p.library, p.eventCodes, p.members, p.depth⟩

/-! ## Creating a node -/

def loadWindowTerminator (p : ConfigPlatform Setting) (constants : ConstantRegistry)
    (setting : Setting) : Except Fault TerminatorOptions := do
  let ns ← optionOr p constants setting "namespace" 0
  let major ← optionOr p constants setting "major" 0
  let minor ← optionOr p constants setting "minor" 0
  let payload ← optionOr p constants setting "payload" 0
  .ok ⟨ns.toInt, major.toInt, minor.toInt, payload.toInt⟩

def loadEventPrototypeOption (p : ConfigPlatform Setting) (constants : ConstantRegistry)
    (options : Setting) : Except Fault (Option TerminatorOptions) :=
  match p.library.getMember options "terminator" with
  | none => .ok none
  | some setting => do .ok (some (← loadWindowTerminator p constants setting))

/-- The options that `create` of `window` looks up. -/
def loadWindowOptions (p : ConfigPlatform Setting) (constants : ConstantRegistry)
    (options : Option Setting) : Except Fault WindowOptions :=
  match options with
  | none => .ok ⟨0, 0, none, none, none⟩
  | some options => do
      let isJumping ← optionOr p constants options "is_jumping" 0
      let additionalStep ← optionOr p constants options "additional_step" 0
      let maxLength ← optionalConstant p constants options "max_length"
      let maxMilliseconds ← optionalConstant p constants options "max_milliseconds"
      let terminator ← loadEventPrototypeOption p constants options
      .ok ⟨isJumping.toInt, additionalStep.toInt, maxLength.map Int64.toInt,
        maxMilliseconds.map Int64.toInt, terminator⟩

/-- `create` of `evdev`; without a file name there is no node. -/
def evdevCreate (p : ProgramPlatform Setting) (constants : ConstantRegistry) (i : Nat)
    (options : Option Setting) : Except Fault (Option CreatedNode) :=
  match options with
  | none => .ok none
  | some options => do
      let ns ← optionOr p.config constants options "namespace" 0
      let grab ← optionOr p.config constants options "grab" 0
      match p.library.lookupString options "file" with
      | none => .ok none
      | some file =>
          .ok ((p.openEvdev i file (grab != 0)).map fun fd => ⟨.evdev (sourceCreate ns.toInt), some fd⟩)

/-- `create` of `getchar`, which reads the standard input. -/
def getcharCreate (p : ConfigPlatform Setting) (constants : ConstantRegistry)
    (options : Option Setting) : Except Fault CreatedNode := do
  let ns ← options.elim (.ok 0) fun options => optionOr p constants options "namespace" 0
  .ok ⟨.getchar (sourceCreate ns.toInt), some 0⟩

/-- What creating nodes changes: the predicates that are registered, and the number of hash functions
that were drawn. -/
structure CreationState where
  predicates : EventPredicateList
  draws : Nat
deriving DecidableEq, Repr

/-- `spec->create`, by the specification; `i` is the number of the node.  `none` is a null pointer. -/
def specCreate (p : ProgramPlatform Setting) (env : FullConfig Setting) (i : Nat)
    (options : Option Setting) (s : CreationState) :
    NodeType → Except Fault (Option CreatedNode × CreationState)
  | .tee => .ok (some ⟨.tee, none⟩, s)
  | .router => do
      let (router, predicates) ← routerCreate p.config env s.predicates options
      .ok (router.map fun router => ⟨.router router, none⟩, { s with predicates := predicates })
  | .modifiers => do
      let node ← modifiersCreate p.config env.constants (p.uninitialised i) options
      .ok (node.map fun node => ⟨.modifiers node, none⟩, s)
  | .modifyPredicate => do
      let (node, predicates) ← modifyPredicateCreate p.config env s.predicates options
      .ok (node.map fun node => ⟨.modifyPredicate node, none⟩, { s with predicates := predicates })
  | .assign => do
      let node ← assignCreate p.config env.constants options
      .ok (some ⟨.assign node, none⟩, s)
  | .differentiate => do
      let node ← differentiateCreate p.config env.constants options
      .ok (some ⟨.differentiate node, none⟩, s)
  | .integrate => do
      let node ← integrateCreate p.config env.constants options
      .ok (some ⟨.integrate node, none⟩, s)
  | .scale => do
      let node ← scaleCreate p.config env.constants options
      .ok (some ⟨.scale node, none⟩, s)
  | .print => .ok (some ⟨.print, none⟩, s)
  | .uinput => do
      let (_, node) ←
        uinputCreate p.config env.constants (p.uninitialised i) (p.uinputCreated i) options
      .ok (node.map fun node => ⟨node.kind, none⟩, s)
  | .window => do
      let windowOptions ← loadWindowOptions p.config env.constants options
      let (node, draws) := windowCreate p.toPlatform windowOptions s.draws
      .ok (some ⟨.window node, none⟩, { s with draws := draws })
  | .evdev => do
      let node ← evdevCreate p env.constants i options
      .ok (node, s)
  | .getchar => do
      let node ← getcharCreate p.config env.constants options
      .ok (some node, s)

/-! ## Starting -/

/-- How the program ends before its first iteration: with the message that it prints, and with the
number and the name of the node that the message is about. -/
inductive Exit where
  | failedToLoadConfig
  | noNodeType (node : Nat) (name : Option String)
  | unknownNodeType (typeName : String) (node : Nat) (name : Option String)
  | failedToCreateNode (node : Nat) (name : Option String)
  | noNodeNamed (name : String)
  | failedToResizeChannelList
  | failedToExtendSubscriptions
  /-- A fault is committed before anything is printed. -/
  | crash (fault : Fault)
deriving DecidableEq, Repr

/-- The result of a part of the program that prints nothing. -/
def orCrash {α : Type} : Except Fault α → Except Exit α
  | .ok a => .ok a
  | .error fault => .error (.crash fault)

/-- The result of a part of the program that prints a message when it finds no memory. -/
def orExit {α : Type} (exit : Exit) : Except Fault α → Except Exit α
  | .ok a => .ok a
  | .error .aborts => .error exit
  | .error fault => .error (.crash fault)

/-- What `main` has so far: the nodes, the number of each named one, and what creating them changed;
the number of hash functions that were drawn is part of the table of names. -/
structure NodesState where
  nodes : List CreatedNode
  names : TableState String Nat
  predicates : EventPredicateList
deriving DecidableEq, Repr

/-- A node without a name is not entered. -/
def insertNodeName (p : ProgramPlatform Setting) (names : TableState String Nat) (name : Option String)
    (i : Nat) : Except Fault (TableState String Nat) :=
  match name with
  | none => .ok names
  | some name => insertName p.config names name i

/-- One round of the loop over the nodes of the configuration. -/
def createNode (p : ProgramPlatform Setting) (registry : GraphNodeSpecificationRegistry)
    (env : FullConfig Setting) (s : NodesState) (config : GraphNodeConfig Setting) :
    Except Exit NodesState :=
  let i := s.nodes.length
  match config.type with
  | none => .error (.noNodeType i config.name)
  | some typeName => do
      match ← orCrash (lookupGraphNodeSpecification registry typeName) with
      | none => .error (.unknownNodeType typeName i config.name)
      | some spec => do
          let (created, after) ←
            orCrash (specCreate p env i config.options ⟨s.predicates, s.names.draws⟩ spec)
          match created with
          | none => .error (.failedToCreateNode i config.name)
          | some created => do
              let names ← orCrash (insertNodeName p ⟨s.names.ht, after.draws⟩ config.name i)
              .ok ⟨s.nodes ++ [created], names, after.predicates⟩

/-- One of the two lookups for a channel; a missing name is a null pointer, which is followed. -/
def lookupEnd (names : HashTable String Nat) (channelEnd : GraphChannelEnd) : Except Exit Nat := do
  let name ← orCrash (followName channelEnd.name)
  match ← orCrash (findName names name) with
  | none => .error (.noNodeNamed name)
  | some n => .ok n

/-- One round of the loop over the channels of the configuration. -/
def createChannel (p : ProgramPlatform Setting) (names : HashTable String Nat)
    (s : Nat × GraphMemory) (config : GraphChannelConfig) : Except Exit (Nat × GraphMemory) := do
  let (i, m) := s
  let start ← lookupEnd names config.from_
  let end_ ← lookupEnd names config.to_
  let m ← orExit .failedToResizeChannelList
    (graphChannelInit p.fits m i (some start) config.from_.index.toNat (some end_) config.to_.index.toNat)
  .ok (i + 1, m)

/-- The program before its first iteration: the graph, who is subscribed to which file for input, and
the lists of the subscriptions. -/
structure StartedProgram where
  world : World
  sources : List (Int × Nat)
  lists : WaitLists
deriving DecidableEq, Repr

/-- `main` up to its loop, with the root of the configuration that was read. -/
def startProgram (p : ProgramPlatform Setting) (configRoot : Option Setting) :
    Except Exit StartedProgram := do
  let registry ← orCrash (registerModules p.config p.modules)
  match ← orCrash (loadConfig p.config configRoot [] registry.draws) with
  | none => .error .failedToLoadConfig
  | some (config, predicates, draws) => do
      let (ht, draws) := hashTableInitImpl p.members draws
      let s ← config.nodes.foldlM (createNode p registry.ht config) ⟨[], ⟨ht, draws⟩, predicates⟩
      let memory : GraphMemory :=
        ⟨s.nodes.map fun created => some created.node, config.channels.map fun _ => none⟩
      let (_, memory) ← config.channels.foldlM (createChannel p s.names.ht) (0, memory)
      let waitInput ← orExit .failedToExtendSubscriptions (registerNodes p.arrays s.nodes)
      .ok
        { world :=
            { events := ⟨[], 0⟩
              nodes := memory.nodes.reduceOption
              channels := memory.channels.reduceOption
              predicates := s.predicates
              deliveries := []
              draws := s.names.draws
              log := [] }
          sources := registerIo s.nodes
          lists := ⟨waitInput, ioSubscriptionListInit p.arrays 5⟩ }

end EventSeq
