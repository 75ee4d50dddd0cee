import DeadCode.Yaml.Node
import DeadCode.Yaml.Token

/-!
YAML documents; a text holds at most one here. Nodes may be given names and referred to by them. A name
stands for a number, which depends on how many names are known when it is given, so two names may come
to share one; a reference then leads to the last node of the number in the whole document.
-/
namespace DeadCode.Yaml

structure Document where
  root : Node
  /-- The nodes that have been given a number, in the order in which they begin. -/
  numbered : List (Nat × Node)

/-- The node that another one stands for. -/
def Document.resolve (document : Document) : Node → Node
  | .reference number =>
    ((document.numbered.reverse.find? (·.1 == number)).map (·.2)).getD (.reference number)
  | node => node

/-- Tokens that are being read, the numbers of the names, and the nodes that have been given one. -/
structure DocumentState where
  tokens : List Token
  names : List (String × Nat)
  numbered : List (Nat × Node)

private abbrev Reading := StateT DocumentState Option

private def peek : Reading (Option Token) := do
  return (← get).tokens.head?

private def skip : Reading Unit :=
  modify fun state => { state with tokens := state.tokens.drop 1 }

private def accept (token : Token) : Reading Bool := do
  if (← peek) = some token then skip; return true else return false

private def expect (token : Token) : Reading Unit := do
  if ← accept token then return else failure

private def nextIsIn (tokens : List (Option Token)) : Reading Bool := do
  return tokens.contains (← peek)

/-- What stands where nothing is written. -/
private def emptyScalar : Node := .scalar .plain none ""

private def readAnchor : Reading (Option String) := do
  match ← peek with
  | some (.anchor name) => skip; return some name
  | _ => return none

private def readTag (handles : List (String × Tag)) : Reading (Option Tag) := do
  match ← peek with
  | some (.tag handle rest) =>
    skip
    if handle.isEmpty then return some rest
    else
      match handles.find? (·.1 == handle) with
      | some (_, start) => return some (start ++ rest)
      | none => failure
  | _ => return none

/-- Gives a name a number, and keeps a place for the node; says where that is. -/
private def enterName (name : String) : Reading Nat := do
  let state ← get
  let number := state.names.length
  set { state with
    names := (name, number) :: state.names.filter (·.1 != name)
    numbered := state.numbered ++ [(number, emptyScalar)] }
  return state.numbered.length

/-- Puts a node at the place that has been kept for it. -/
private def fillPlace (place : Nat) (node : Node) : Reading Unit :=
  modify fun state => { state with
    numbered := state.numbered.modify place fun (number, _) => (number, node) }

/-- Reads the name and the tag of a node, in any order. -/
private def readProperties (handles : List (String × Tag)) :
    Reading (Option String × Option Tag) := do
  match ← readAnchor with
  | some anchor => return (some anchor, ← readTag handles)
  | none =>
    let tag ← readTag handles
    if tag.isSome then return (← readAnchor, tag) else return (none, none)

section
variable (handles : List (String × Tag))

mutual

/-- Reads a node, at most to a given depth. Only a block node may be a block collection; after a key
also one that is not indented. -/
private def readNode (inBlock afterKey : Bool) : Nat → Reading Node
  | 0 => failure
  | bound + 1 => do
    match ← peek with
    | some (.reference name) =>
      skip
      match (← get).names.find? (·.1 == name) with
      | some (_, number) => return .reference number
      | none => failure
    | _ =>
      match ← readProperties handles with
      | (some name, tag) =>
        let place ← enterName name
        let node ← readContent inBlock afterKey tag true bound
        fillPlace place node
        return node
      | (none, tag) => readContent inBlock afterKey tag false bound

private def readContent (inBlock afterKey : Bool) (tag : Option Tag) (isNamed : Bool) :
    Nat → Reading Node
  | 0 => failure
  | bound + 1 => do
    match ← peek with
    | some (.scalar style text) =>
      skip
      return .scalar style tag text
    | some .flowSequenceStart => skip; return .sequence (← readFlowItems true bound)
    | some .flowMappingStart => skip; return .mapping (← readFlowEntries true bound)
    | next =>
      if afterKey && next = some .blockEntry then return .sequence (← readLooseItems bound)
      else if inBlock && next = some .blockSequenceStart then
        skip
        return .sequence (← readBlockItems bound)
      else if inBlock && next = some .blockMappingStart then
        skip
        return .mapping (← readBlockEntries bound)
      else if isNamed || tag.isSome then return .scalar .plain tag ""
      else failure

private def readBlockItems : Nat → Reading (List Node)
  | 0 => failure
  | bound + 1 => do
    if ← accept .blockEnd then return []
    else if ← accept .blockEntry then
      let item ← if ← nextIsIn [some .blockEntry, some .blockEnd] then pure emptyScalar
        else readNode true false bound
      return item :: (← readBlockItems bound)
    else failure

/-- The items of a sequence that is not indented end where there is no further one. -/
private def readLooseItems : Nat → Reading (List Node)
  | 0 => failure
  | bound + 1 => do
    if ← accept .blockEntry then
      let item ←
        if ← nextIsIn [some .blockEntry, some .key, some .value, some .blockEnd] then
          pure emptyScalar
        else readNode true false bound
      return item :: (← readLooseItems bound)
    else return []

private def readBlockEntries : Nat → Reading (List (Node × Node))
  | 0 => failure
  | bound + 1 => do
    if ← accept .blockEnd then return []
    else if ← accept .key then
      let key ← readBlockPart bound
      let value ← if ← accept .value then readBlockPart bound else pure emptyScalar
      return (key, value) :: (← readBlockEntries bound)
    else failure

/-- A key or a value of a block mapping. -/
private def readBlockPart : Nat → Reading Node
  | 0 => failure
  | bound + 1 => do
    if ← nextIsIn [some .key, some .value, some .blockEnd] then return emptyScalar
    else readNode true true bound

/-- The items of a sequence in brackets. One that is announced as a key is a mapping of a single
entry. -/
private def readFlowItems (isFirst : Bool) : Nat → Reading (List Node)
  | 0 => failure
  | bound + 1 => do
    if ← accept .flowSequenceEnd then return []
    unless isFirst do expect .flowEntry
    if ← accept .flowSequenceEnd then return []
    else if ← accept .key then
      let key ←
        if ← nextIsIn [some .value, some .flowEntry, some .flowSequenceEnd] then
          skip
          pure emptyScalar
        else readNode false false bound
      let value ← readFlowValue .flowSequenceEnd bound
      return .mapping [(key, value)] :: (← readFlowItems false bound)
    else
      let item ← readNode false false bound
      return item :: (← readFlowItems false bound)

/-- A value in brackets, if there is one. -/
private def readFlowValue (close : Token) : Nat → Reading Node
  | 0 => failure
  | bound + 1 => do
    if ← accept .value then
      if ← nextIsIn [some .flowEntry, some close] then return emptyScalar
      else readNode false false bound
    else return emptyScalar

private def readFlowEntries (isFirst : Bool) : Nat → Reading (List (Node × Node))
  | 0 => failure
  | bound + 1 => do
    if ← accept .flowMappingEnd then return []
    unless isFirst do expect .flowEntry
    if ← accept .flowMappingEnd then return []
    else if ← accept .key then
      let key ←
        if ← nextIsIn [some .value, some .flowEntry, some .flowMappingEnd] then pure emptyScalar
        else readNode false false bound
      let value ← readFlowValue .flowMappingEnd bound
      return (key, value) :: (← readFlowEntries false bound)
    else
      let key ← readNode false false bound
      return (key, emptyScalar) :: (← readFlowEntries false bound)

end

end

/-- Reads the directives before a document: at most one version, and no handle twice. -/
private def readDirectives (hasVersion : Bool) (handles : List (String × Tag)) :
    List Token → Option (List (String × Tag) × List Token)
  | .version major minor :: rest =>
    if hasVersion || major ≠ 1 || (minor ≠ 1 && minor ≠ 2) then none
    else readDirectives true handles rest
  | .handle name start :: rest =>
    if handles.any (·.1 == name) then none
    else readDirectives hasVersion (handles ++ [(name, start)]) rest
  | rest => some (handles ++ [("!", .bare), ("!!", .core "")], rest)

/-- Whether a token cannot begin the content of a document. -/
private def endsDocument : Option Token → Bool
  | none => true
  | some (.version ..) => true
  | some (.handle ..) => true
  | some .documentStart => true
  | some .documentEnd => true
  | _ => false

/-- The document of tokens; `some none` if there is none, `none` if they are malformed or make up
several documents. -/
def Document.ofTokens? (tokens : List Token) : Option (Option Document) := do
  if tokens.isEmpty then some none
  else
    let (handles, rest) ← readDirectives false [] tokens
    let isMarked := rest.head? == some .documentStart
    if rest.length ≠ tokens.length && !isMarked then none
    else
      let rest := if isMarked then rest.drop 1 else rest
      let (node, state) ←
        if isMarked && endsDocument rest.head? then some (emptyScalar, ⟨rest, [], []⟩)
        else (readNode handles true false (4 * rest.length + 4)).run ⟨rest, [], []⟩
      if (state.tokens.dropWhile (· == .documentEnd)).isEmpty then some (some ⟨node, state.numbered⟩)
      else none

/-- The document of a text; `some none` if it is empty, `none` if it is malformed. -/
def Document.read? (text : List Char) : Option (Option Document) :=
  (Token.scan? text).bind ofTokens?

end DeadCode.Yaml
