import Colloquy.Compiler.Assembly
import Colloquy.Compiler.Typing
import Colloquy.Timeline.Cue

/-!
# Lowering stories

A story is lowered statement by statement.  A block is emitted between two labels: it starts at its
entry and leads to its exit, and the statements in it lead to the labels of their successors.  Checks
are made on the way, in the order of the source, and never stop the lowering, so that every story has
a script.
-/

namespace Colloquy

/-- What the compiler looks out for. -/
structure CompileOptions where
  /-- Whether warnings count as errors. -/
  strictWarnings : Bool := false
  /-- Whether statements that control never reaches are reported. -/
  unreachableWarnings : Bool := true
  deriving DecidableEq, Repr

/-- A section name that was met: its label, and where it is declared if it is. -/
structure SectionEntry where
  label : Label
  declared : Option Span
  deriving DecidableEq, Repr

/-- A lowering under way. -/
structure Draft where
  assembly : Assembly
  sections : Catalog SectionEntry
  errors : List CompileError

/-- A step of a lowering. -/
abbrev Lower := StateM Draft

namespace Lower

/-! ## Emitting -/

/-- Run an operation of the assembly. -/
def fetch {α : Type} (f : Assembly → α × Assembly) : Lower α :=
  modifyGet fun d => let (x, a) := f d.assembly; (x, { d with assembly := a })

/-- Run an operation of the assembly that returns nothing. -/
def update (f : Assembly → Assembly) : Lower Unit :=
  modify fun d => { d with assembly := f d.assembly }

/-- Add a word. -/
def emit (w : UInt32) : Lower Unit := update (·.push w)

/-- Add a number as a word. -/
def emitCount (n : Nat) : Lower Unit := emit (UInt32.ofNat n)

/-- Add a word that waits for a label. -/
def emitTarget (l : Label) : Lower Unit := update (·.pushTarget l)

/-- A new label. -/
def freshLabel : Lower Label := fetch Assembly.freshLabel

/-- Bind a label to the next word. -/
def bindLabel (l : Label) : Lower Unit := update (·.bind l)

/-- The place of a text in its pool. -/
def string (s : String) : Lower UInt32 := fetch (·.string s)

/-- The place of a speaker in its pool. -/
def speaker (s : String) : Lower UInt32 := fetch (·.speaker s)

/-- Report errors. -/
def report (errors : List CompileError) : Lower Unit :=
  modify fun d => { d with errors := d.errors ++ errors }

/-! ## Expressions -/

/-- A literal. -/
def literal : Literal → Lower Unit
  | .float x => do
    let i ← fetch (·.float x)
    emit Code.ExprCode.float.word
    emit i
  | .string s => do
    let i ← string s
    emit Code.ExprCode.string.word
    emit i
  | .bool b => do
    emit Code.ExprCode.bool.word
    emit (if b then 1 else 0)

/-- The literal of a value; there is none of void. -/
def literalOf? : Value → Option Literal
  | .float x => some (.float x)
  | .bool b => some (.bool b)
  | .string s => some (.string s)
  | .void => none

/-- The defaults of parameters as literals, up to the first that has none; their number is returned. -/
def defaults : List Parameter → Lower Nat
  | [] => return 0
  | p :: ps =>
    match p.fallback.bind literalOf? with
    | none => return 0
    | some v => do
      literal v
      return (← defaults ps) + 1

/-- The defaults of the parameters that a call of a function leaves out; their number is returned. -/
def fallbacks (r : Registry) (name : String) (given : Nat) : Lower Nat :=
  match r.findFunction? name with
  | some f => defaults (f.params.drop given)
  | none => return 0

mutual

/-- An expression.  Calls get the defaults of the parameters that are left out, so that hosts see all
arguments. -/
def expr (r : Registry) : Expr → Lower Unit
  | .literal v _ => literal v
  | .variable x => do
    let i ← string x.name
    emit Code.ExprCode.variable.word
    emit i
  | .group e => expr r e
  | .unary op e => do
    emit (Code.ExprCode.unary op.val).word
    expr r e
  | .binary op left right => do
    emit (Code.ExprCode.binary op.val).word
    expr r left
    expr r right
  | .assign x op value => do
    let i ← string x.name
    emit (Code.ExprCode.assign op.val).word
    emit i
    expr r value
  | .call callee args awaited _ => do
    let i ← string callee.name
    emit Code.ExprCode.call.word
    emit i
    emit (if awaited.isSome then 1 else 0)
    let count ← fetch Assembly.reserve
    exprs r args
    let added ← fallbacks r callee.name args.length
    update (·.fill count (UInt32.ofNat (args.length + added)))

/-- Expressions one after another. -/
def exprs (r : Registry) : List Expr → Lower Unit
  | [] => return
  | e :: es => do
    expr r e
    exprs r es

end

/-- Check an expression of any kind and emit it. -/
def checkedExpr (r : Registry) (e : Expr) : Lower Unit := do
  report (Typing.infer r e).errors
  expr r e

/-- Check that an expression is of a kind. -/
def checkKind (r : Registry) (e : Expr) (k : Kind) : Lower Unit := report (Typing.exprOf r e k)

/-! ## Sections as targets -/

/-- The label of a section, declared or not; it is noted as mentioned. -/
def sectionLabel (x : Ident) : Lower Label := do
  match (← get).sections.find? x.name with
  | some s =>
    update (·.mention s.label x)
    return s.label
  | none =>
    let l ← freshLabel
    modify fun d => { d with sections := d.sections.insert x.name ⟨l, none⟩ }
    update (·.mention l x)
    return l

/-! ## Parts of statements -/

/-- A stretch of text. -/
def segment (r : Registry) : Segment → Lower Unit
  | .text t => do
    let i ← string t.val
    emit Code.SegmentKind.text.word
    emit i
  | .placeholder e => do
    report (Typing.infer r e).errors
    emit Code.SegmentKind.expr.word
    expr r e

/-- Stretches of text. -/
def segments (r : Registry) (ss : List Segment) : Lower Unit := do
  emitCount ss.length
  ss.forM (segment r)

/-- The sections that tags in fixed text jump to. -/
def inlineTargets : Segment → List Ident
  | .text t => (interpolate t.val).tags.filterMap fun
    | .goto name => some ⟨name, t.span⟩
    | _ => none
  | .placeholder _ => []

/-- Refer to the sections that tags in text jump to when the script is played. -/
def mentionInline (ss : List Segment) : Lower Unit :=
  (ss.flatMap inlineTargets).forM fun x => do
    let _ ← sectionLabel x

/-- The errors of a key and its values, with the keys before it. -/
def entryErrors (before : List Ident) (e : HashEntry) : List CompileError :=
  (match before.find? (·.name = e.key.name) with
    | some first => [.duplicateHashKey e.key.name e.key.span first.span]
    | none => [])
  ++ if 1 < e.values.length then
      [.malformedHash e.key.name e.values.length
        (e.values.foldl (fun s v => s.cover v.span) e.key.span)]
    else []

/-- A key and its values; a key without values is a flag. -/
def entry (r : Registry) (e : HashEntry) : Lower Unit := do
  let key ← string e.key.name
  if e.values.isEmpty then
    emitCount 1
    emit key
    literal (.bool true)
  else
    emitCount e.values.length
    emit key
    e.values.forM (checkedExpr r)

/-- Keys and their values, after the keys of `before`. -/
def entries (r : Registry) (before : List Ident) : List HashEntry → Lower Unit
  | [] => return
  | e :: es => do
    report (entryErrors before e)
    entry r e
    entries r (before ++ [e.key]) es

/-- Hash data. -/
def hash (r : Registry) (h : HashBlock) : Lower Unit := do
  emitCount h.entries.length
  entries r [] h.entries

/-- A speaker of a line. -/
def speakerRef (r : Registry) : SpeakerRef → Lower Unit
  | .named x => do
    let i ← speaker x.name
    emit Code.SpeakerKind.id.word
    emit i
  | .variable x => do
    report (Typing.variableOf r x .string)
    let i ← string x.name
    emit Code.SpeakerKind.variable.word
    emit i

/-- A directive. -/
def directive (r : Registry) : Directive → Lower Unit
  | .auto => emit Code.ExprCode.auto.word
  | .speed e => do
    checkKind r e .float
    emit Code.ExprCode.speed.word
    expr r e
  | .pause e => do
    checkKind r e .float
    emit Code.ExprCode.pause.word
    expr r e
  | .goto x => do
    let l ← sectionLabel x
    emit Code.ExprCode.goto.word
    emitTarget l

/-- The hash data of a line, as a statement of its own that leads to the line. -/
def lineHash (r : Registry) : Option HashBlock → Lower Unit
  | some h => do
    let here ← freshLabel
    emit Code.StatementCode.hash.word
    emitTarget here
    hash r h
    bindLabel here
  | none => return

/-- A line, after its hash data. -/
def line (r : Registry) (l : Line) (next : Label) : Lower Unit := do
  lineHash r l.hash
  emit Code.StatementCode.line.word
  emitTarget next
  emitCount l.speakers.length
  l.speakers.forM (speakerRef r)
  segments r l.text
  mentionInline l.text
  emitCount l.directives.length
  l.directives.forM fun d => directive r d.val

/-! ## Choices -/

mutual

/-- The number of options in an item. -/
def itemOptions : ChoiceItem → Nat
  | .option .. => 1
  | .filter branches otherwise _ => branchesOptions branches + otherwiseOptions otherwise

/-- The number of options in items. -/
def itemsOptions : List ChoiceItem → Nat
  | [] => 0
  | i :: is => itemOptions i + itemsOptions is

/-- The number of options in the branches of a filter. -/
def branchesOptions : List (Expr × List ChoiceItem) → Nat
  | [] => 0
  | (_, items) :: rest => itemsOptions items + branchesOptions rest

/-- The number of options in the last branch of a filter. -/
def otherwiseOptions : Option (List ChoiceItem) → Nat
  | none => 0
  | some items => itemsOptions items

end

mutual

/-- Whether an item offers an enabled option whatever the state of the script is. -/
def itemGuarantees : ChoiceItem → Bool
  | .option guard .. => guard.isNone
  | .filter branches otherwise _ =>
    otherwiseGuarantees otherwise && branchesGuarantee branches

/-- Whether one of the items offers an enabled option in any state. -/
def itemsGuarantee : List ChoiceItem → Bool
  | [] => false
  | i :: is => itemGuarantees i || itemsGuarantee is

/-- Whether each branch of a filter offers an enabled option in any state. -/
def branchesGuarantee : List (Expr × List ChoiceItem) → Bool
  | [] => true
  | (_, items) :: rest => itemsGuarantee items && branchesGuarantee rest

/-- Whether there is a last branch and it offers an enabled option in any state. -/
def otherwiseGuarantees : Option (List ChoiceItem) → Bool
  | none => false
  | some items => itemsGuarantee items

end

/-- The errors of a choice as a whole. -/
def choiceErrors (items : List ChoiceItem) (span : Span) : List CompileError :=
  if itemsOptions items = 0 then [.emptyChoice span]
  else if itemsGuarantee items then []
  else [.noGuaranteedChoice span]

/-- The labels an option's body stands between. -/
structure BodyLabels where
  entry : Label
  exit : Label
  deriving DecidableEq, Repr

/-- The list of items as it was emitted: the number of its entries, and the labels of the bodies still
to be emitted, in order. -/
structure ItemList where
  count : Nat
  bodies : List BodyLabels
  deriving DecidableEq, Repr

/-- One list of items after another. -/
def ItemList.append (a b : ItemList) : ItemList := ⟨a.count + b.count, a.bodies ++ b.bodies⟩

/-- The label an option leads to after its body. -/
def optionExit (next : Label) : Option Ident → Lower Label
  | some x => sectionLabel x
  | none => return next

/-- The guard of an option. -/
def guard (r : Registry) : Option Expr → Lower Unit
  | some e => do
    checkKind r e .bool
    emit 1
    expr r e
  | none => emit 0

/-- The condition of a filter's branch. -/
def condition (r : Registry) (marker : Code.ChoiceMarker) (e : Expr) : Lower Unit := do
  emit marker.word
  checkKind r e .bool
  expr r e

/-- The target of an option: its body, to be emitted later, or where it leads without one. -/
def optionEntry (exit : Label) : Option (List Stmt) → Lower (List BodyLabels)
  | some _ => do
    let entry ← freshLabel
    emitTarget entry
    return [⟨entry, exit⟩]
  | none => do
    emitTarget exit
    return []

mutual

/-- An item.  Options without a target lead to `next`. -/
def item (r : Registry) (next : Label) : ChoiceItem → Lower ItemList
  | .option guard text target body _ => do
    let exit ← optionExit next target
    emit Code.ChoiceMarker.option.word
    let bodies ← optionEntry exit body
    Lower.guard r guard
    segments r text
    return ⟨1, bodies⟩
  | .filter branches otherwise _ => do
    let inside ← filterBranches r next .ifMarker branches
    let last ← filterOtherwise r next otherwise
    emit Code.ChoiceMarker.endIf.word
    return (inside.append last).append ⟨1, []⟩

/-- Items one after another. -/
def items (r : Registry) (next : Label) : List ChoiceItem → Lower ItemList
  | [] => return ⟨0, []⟩
  | i :: is => do
    let first ← item r next i
    return first.append (← items r next is)

/-- The branches of a filter, the first of them opened by `marker`. -/
def filterBranches (r : Registry) (next : Label) (marker : Code.ChoiceMarker) :
    List (Expr × List ChoiceItem) → Lower ItemList
  | [] => return ⟨0, []⟩
  | (e, is) :: rest => do
    condition r marker e
    let first ← items r next is
    return ((⟨1, []⟩ : ItemList).append first).append (← filterBranches r next .elseIf rest)

/-- The last branch of a filter. -/
def filterOtherwise (r : Registry) (next : Label) : Option (List ChoiceItem) → Lower ItemList
  | none => return ⟨0, []⟩
  | some is => do
    emit Code.ChoiceMarker.elseMarker.word
    return (⟨1, []⟩ : ItemList).append (← items r next is)

end

/-! ## Statements -/

/-- Conditions with the labels of their bodies. -/
def conditions (r : Registry) : List (Expr × List Stmt) → List Label → Lower Unit
  | (e, _) :: rest, l :: ls => do
    checkKind r e .bool
    expr r e
    emitTarget l
    conditions r rest ls
  | _, _ => return

/-- New labels, as many as asked for. -/
def freshLabels : Nat → Lower (List Label)
  | 0 => return []
  | n + 1 => do
    let l ← freshLabel
    return l :: (← freshLabels n)

/-- Whether control reaches a statement of a block. -/
inductive Reach where
  | reached
  /-- Not since a statement that control does not go on from. -/
  | cut (terminatedAt : Span)
  /-- Not, and it is reported already. -/
  | reported
  deriving DecidableEq, Repr

/-- Report a statement that control does not reach, once in a block. -/
def reportReach (o : CompileOptions) (s : Stmt) : Reach → Lower Reach
  | .cut terminatedAt =>
    if o.unreachableWarnings then do
      report [.unreachableStatement s.span terminatedAt]
      return .reported
    else return .cut terminatedAt
  | reach => return reach

/-- Whether control reaches what follows a statement. -/
def Reach.after (s : Stmt) : Reach → Reach
  | .reached => if s.isTerminal then .cut s.span else .reached
  | reach => reach

/-- The label after a statement: a new one, or the exit of the block if no statements are left. -/
def successor (exit : Label) : List Stmt → Lower Label
  | [] => return exit
  | _ :: _ => freshLabel

mutual

/-- A statement that leads to `next`. -/
def stmt (r : Registry) (o : CompileOptions) (next : Label) : Stmt → Lower Unit
  | .line l => line r l next
  | .instruction e => do
    report (Typing.infer r e).errors
    emit Code.StatementCode.instruction.word
    emitTarget next
    expr r e
  | .goto x => do
    let l ← sectionLabel x
    emit Code.StatementCode.instruction.word
    emitTarget l
    emit Code.ExprCode.goto.word
    emitTarget l
  | .finish _ => emit Code.StatementCode.finish.word
  | .conditional branches otherwise _ => do
    let entries ← freshLabels branches.length
    let last ← freshLabel
    emit Code.StatementCode.conditional.word
    emitTarget last
    emitCount branches.length
    conditions r branches entries
    branchBodies r o next branches entries
    otherwiseBody r o last next otherwise
  | .choice is span => do
    report (choiceErrors is span)
    emit Code.StatementCode.choice.word
    emitTarget next
    let count ← fetch Assembly.reserve
    let list ← items r next is
    update (·.fill count (UInt32.ofNat list.count))
    let _ ← optionBodies r o is list.bodies
  | .hash h => do
    emit Code.StatementCode.hash.word
    emitTarget next
    hash r h
  | .speaker x h _ => do
    let i ← speaker x.name
    emit Code.StatementCode.speaker.word
    emitTarget next
    emit i
    hash r h

/-- The statements of a block, the first of them at `current`, the last leading to `exit`. -/
def stmts (r : Registry) (o : CompileOptions) (exit : Label) :
    List Stmt → Label → Reach → Lower Unit
  | [], _, _ => return
  | s :: ss, current, reach => do
    let reach ← reportReach o s reach
    let next ← successor exit ss
    bindLabel current
    stmt r o next s
    stmts r o exit ss next (reach.after s)

/-- A block between two labels.  An empty one leads on at once. -/
def block (r : Registry) (o : CompileOptions) (entry exit : Label) : List Stmt → Lower Unit
  | [] => update (·.redirect entry exit)
  | s :: ss => do
    let next ← successor exit ss
    bindLabel entry
    stmt r o next s
    stmts r o exit ss next (Reach.reached.after s)

/-- The bodies of branches at their labels. -/
def branchBodies (r : Registry) (o : CompileOptions) (exit : Label) :
    List (Expr × List Stmt) → List Label → Lower Unit
  | (_, body) :: rest, l :: ls => do
    block r o l exit body
    branchBodies r o exit rest ls
  | _, _ => return

/-- The body of the last branch; without one, its label leads on. -/
def otherwiseBody (r : Registry) (o : CompileOptions) (entry exit : Label) :
    Option (List Stmt) → Lower Unit
  | none => update (·.redirect entry exit)
  | some body => block r o entry exit body

/-- The bodies of the options in an item, at the first of the labels; the labels left are returned. -/
def itemBodies (r : Registry) (o : CompileOptions) :
    ChoiceItem → List BodyLabels → Lower (List BodyLabels)
  | .option _ _ _ body _, labels => optionBody r o body labels
  | .filter branches otherwise _, labels => do
    let labels ← filterBodies r o branches labels
    elseBodies r o otherwise labels

/-- The body of an option, if it has one. -/
def optionBody (r : Registry) (o : CompileOptions) :
    Option (List Stmt) → List BodyLabels → Lower (List BodyLabels)
  | some body, l :: ls => do
    block r o l.entry l.exit body
    return ls
  | _, labels => return labels

/-- The bodies of the options in items. -/
def optionBodies (r : Registry) (o : CompileOptions) :
    List ChoiceItem → List BodyLabels → Lower (List BodyLabels)
  | [], labels => return labels
  | i :: is, labels => do
    let labels ← itemBodies r o i labels
    optionBodies r o is labels

/-- The bodies of the options in the branches of a filter. -/
def filterBodies (r : Registry) (o : CompileOptions) :
    List (Expr × List ChoiceItem) → List BodyLabels → Lower (List BodyLabels)
  | [], labels => return labels
  | (_, is) :: rest, labels => do
    let labels ← optionBodies r o is labels
    filterBodies r o rest labels

/-- The bodies of the options in the last branch of a filter. -/
def elseBodies (r : Registry) (o : CompileOptions) :
    Option (List ChoiceItem) → List BodyLabels → Lower (List BodyLabels)
  | none, labels => return labels
  | some is, labels => optionBodies r o is labels

end

/-! ## Sections -/

/-- Declare a section and return the label of its entry.  A name that is declared already is reported,
and keeps leading to its first section. -/
def declare (s : Section) : Lower Label := do
  let l ← freshLabel
  match ((← get).sections.find? s.name.name).bind SectionEntry.declared with
  | some first => report [.duplicateSection s.name.name s.name.span first]
  | none => modify fun d =>
      { d with sections := d.sections.insert s.name.name ⟨l, some s.name.span⟩ }
  return l

/-- Declare sections. -/
def declareAll : List Section → Lower (List Label)
  | [] => return []
  | s :: ss => do
    let l ← declare s
    return l :: (← declareAll ss)

/-- The end of a section, if control falls off it. -/
def sectionEnd (exit : Label) : Lower Unit := do
  if (← get).assembly.isAwaited exit then
    bindLabel exit
    emit Code.StatementCode.finish.word

/-- A section at its label.  Falling off its end ends the script. -/
def sectionBody (r : Registry) (o : CompileOptions) (s : Section) (l : Label) : Lower Unit := do
  let body ← freshLabel
  let exit ← freshLabel
  let name ← string s.name.name
  bindLabel l
  emit Code.StatementCode.entry.word
  emitTarget body
  emit name
  block r o body exit s.body
  sectionEnd exit

/-- Sections at their labels. -/
def sectionBodies (r : Registry) (o : CompileOptions) : List Section → List Label → Lower Unit
  | s :: ss, l :: ls => do
    sectionBody r o s l
    sectionBodies r o ss ls
  | _, _ => return

/-- A whole story. -/
def story (r : Registry) (o : CompileOptions) (s : Story) : Lower Unit := do
  let labels ← declareAll s
  sectionBodies r o s labels

end Lower

end Colloquy
