import Resampler.Yaml.Node
import Resampler.Yaml.Token.Lexer

/-!
Reading a YAML document.

The nodes of a document follow from its tokens by recursive descent. A text is read
as exactly one document, whose directives may name its version and give handles for
its tags.
-/

namespace Resampler.Yaml

/-- The tokens that are left, and what the names before them stand for. -/
structure Reading where
  tokens : List Token
  /-- the anchors by name, none of them twice -/
  anchors : List (String × Nat)
  handles : List (String × Tag)

/-- A step of reading, which may find that the tokens spell no document. -/
abbrev Read (β : Type) := StateT Reading Option β

namespace Read

/-- The next token, which stays. -/
def peek : Read Token := fun r => r.tokens.head?.map (·, r)

def next : Read Token := fun r =>
  match r.tokens with
  | [] => none
  | t :: ts => some (t, { r with tokens := ts })

/-- Whether the next token is one of some. -/
def sees (ts : List Token) : Read Bool := do return ts.contains (← peek)

/-- Goes over a token if it comes next, and says whether it did. -/
def accept (t : Token) : Read Bool := do
  if (← peek) = t then
    let _ ← next
    return true
  else
    return false

/-- Goes over a token that must come next. -/
def expect (t : Token) : Read Unit := do
  if (← next) ≠ t then failure

/-- The number for a new anchor: how many names there are before it. A name may be given
anew. -/
def newAnchor (name : String) : Read Nat := fun r =>
  let id := r.anchors.length
  some (id, { r with anchors := (name, id) :: r.anchors.filter (·.1 != name) })

/-- The number of the anchor that has a name. -/
def anchorOf (name : String) : Read Nat := fun r => (r.anchors.lookup name).map (·, r)

/-- The tag that a handle and a suffix spell. -/
def tagOf (handle : String) (suffix : Tag) : Read Tag := fun r =>
  if handle = "" then some (suffix, r)
  else (r.handles.lookup handle).map fun expansion => (expansion.append suffix, r)

def tag : Read (Option Tag) := do
  match ← peek with
  | .tag handle suffix =>
    let _ ← next
    return some (← tagOf handle suffix)
  | _ => return none

def anchor : Read (Option Nat) := do
  match ← peek with
  | .anchor name =>
    let _ ← next
    return some (← newAnchor name)
  | _ => return none

/-- A tag and an anchor, in either order. -/
def properties : Read Properties := do
  let tag? ← tag
  let anchor? ← anchor
  match tag? with
  | some t => return ⟨some t, anchor?⟩
  | none => return ⟨← tag, anchor?⟩

/-- The node without content, which must have a tag or an anchor to be one. -/
def bare (props : Properties) : Read Node :=
  if props = .absent then failure else pure (.scalar props .empty)

/-- The given node if one of some tokens comes next, and what is read otherwise. -/
def unlessSees (ts : List Token) (read : Read Node) : Read Node := do
  if ← sees ts then return .empty else read

mutual

/-- A node. `block` admits the collections that indentation opens, and `indentless` a
sequence at the column of the mapping around it. -/
def node : Nat → (block indentless : Bool) → Read Node
  | 0, _, _ => failure
  | fuel + 1, block, indentless => do
    if let .reference name ← peek then
      let _ ← next
      return .reference (← anchorOf name)
    let props ← properties
    match ← peek with
    | .scalar text style =>
      let _ ← next
      return .scalar props (.read text style props.tag)
    | .blockEntry =>
      if indentless then return .sequence props (← indentlessItems fuel) else bare props
    | .blockSequenceStart =>
      if block then
        let _ ← next
        return .sequence props (← blockItems fuel)
      else
        bare props
    | .blockMappingStart =>
      if block then
        let _ ← next
        return .mapping props (← blockEntries fuel)
      else
        bare props
    | .flowSequenceStart =>
      let _ ← next
      return .sequence props (← flowItems fuel true)
    | .flowMappingStart =>
      let _ ← next
      return .mapping props (← flowEntries fuel true)
    | _ => bare props

/-- The items of a block sequence up to its end. -/
def blockItems : Nat → Read (List Node)
  | 0 => failure
  | fuel + 1 => do
    if ← accept .blockEnd then return []
    expect .blockEntry
    let item ← unlessSees [.blockEntry, .blockEnd] (node fuel true false)
    return item :: (← blockItems fuel)

/-- The items of a sequence at the column of the mapping around it. -/
def indentlessItems : Nat → Read (List Node)
  | 0 => failure
  | fuel + 1 => do
    if ← accept .blockEntry then
      let item ← unlessSees [.blockEntry, .key, .value, .blockEnd] (node fuel true false)
      return item :: (← indentlessItems fuel)
    else
      return []

/-- The entries of a block mapping up to its end. -/
def blockEntries : Nat → Read (List (Node × Node))
  | 0 => failure
  | fuel + 1 => do
    if ← accept .blockEnd then return []
    expect .key
    let ends : List Token := [.key, .value, .blockEnd]
    let k ← unlessSees ends (node fuel true true)
    let v ← if ← accept .value then unlessSees ends (node fuel true true) else pure .empty
    return (k, v) :: (← blockEntries fuel)

/-- The items of a sequence between brackets. -/
def flowItems : Nat → (first : Bool) → Read (List Node)
  | 0, _ => failure
  | fuel + 1, first => do
    if ← accept .flowSequenceEnd then return []
    if !first then
      expect .flowEntry
    if ← accept .flowSequenceEnd then return []
    let item ← if ← accept .key then flowPair fuel else node fuel false false
    return item :: (← flowItems fuel false)

/-- The single entry of a mapping that is an item of a sequence. The token after a key
without content belongs to the key. -/
def flowPair : Nat → Read Node
  | 0 => failure
  | fuel + 1 => do
    let ends : List Token := [.flowEntry, .flowSequenceEnd]
    let k ←
      if ← sees (.value :: ends) then do
        let _ ← next
        pure .empty
      else
        node fuel false false
    let v ← if ← accept .value then unlessSees ends (node fuel false false) else pure .empty
    return .mapping .absent [(k, v)]

/-- The entries of a mapping between braces. -/
def flowEntries : Nat → (first : Bool) → Read (List (Node × Node))
  | 0, _ => failure
  | fuel + 1, first => do
    if ← accept .flowMappingEnd then return []
    if !first then
      expect .flowEntry
    if ← accept .flowMappingEnd then return []
    let ends : List Token := [.flowEntry, .flowMappingEnd]
    if ← accept .key then
      let k ← unlessSees (.value :: ends) (node fuel false false)
      let v ← if ← accept .value then unlessSees ends (node fuel false false) else pure .empty
      return (k, v) :: (← flowEntries fuel false)
    else
      let k ← node fuel false false
      return (k, .empty) :: (← flowEntries fuel false)

end

/-- What follows the start of a document. -/
def content (fuel : Nat) : Read Node := do
  match ← peek with
  | .version .. | .tagHandle .. | .documentStart | .documentEnd | .streamEnd => return .empty
  | _ => node fuel true false

end Read

def Token.isDirective : Token → Bool
  | .version .. | .tagHandle .. => true
  | _ => false

/-- The handles that directives give and those that need none. A directive speaks of
version 1.1 or 1.2, and no two speak of the same. -/
def handlesOf? (directives : List Token) : Option (List (String × Tag)) :=
  let versions := directives.filterMap fun
    | .version major minor => some (major, minor)
    | _ => none
  let handles := directives.filterMap fun
    | .tagHandle handle expansion => some (handle, expansion)
    | _ => none
  if versions.length ≤ 1 && versions.all ([(1, 1), (1, 2)].contains ·)
      && (handles.map (·.1)).eraseDups.length == handles.length then
    some (handles ++ [("!", .text "!"), ("!!", .text "tag:yaml.org,2002:")])
  else
    none

/-- The root of the only document of a stream of tokens. Only a document with directives
must have its start marked. -/
def Node.ofTokens? (tokens : List Token) : Option Node := do
  let directives := tokens.takeWhile (·.isDirective)
  let rest := tokens.dropWhile (·.isDirective)
  let handles ← handlesOf? directives
  let fuel := 4 * tokens.length + 4
  let (root, after) ←
    match rest with
    | .documentStart :: rest => (Read.content fuel).run ⟨rest, [], handles⟩
    | rest => if directives.isEmpty then (Read.node fuel true false).run ⟨rest, [], handles⟩ else none
  if after.tokens.dropWhile (· = .documentEnd) = [.streamEnd] then some root else none

/-- The root of the only document of a text. -/
def Node.ofText? (s : String) : Option Node := (tokens? s).bind Node.ofTokens?

end Resampler.Yaml
