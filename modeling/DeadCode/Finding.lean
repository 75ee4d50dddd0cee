import DeadCode.Settings.Basic
import DeadCode.Symbol.Table

/-!
The verdict on each declared symbol. Every symbol falls into one category; the first rule that applies
decides.
-/
namespace DeadCode

/-- The categories, in the order in which they are listed. -/
inductive Category where
  | used
  /-- Used in its own file only. -/
  | internalOnly
  | unused
  | entryPoint
  /-- Never to be reported, or not to be referred to by name. -/
  | retained
  | commentedOut
  /-- A method that the framework would call, commented out. -/
  | disabledFrameworkOverride
  /-- A method that the framework calls and nothing else does. -/
  | frameworkMethod
  /-- Judged by its class. -/
  | constructor
deriving DecidableEq, Repr

inductive Severity where
  | info
  | warning
deriving DecidableEq, Repr

def Severity.tag : Severity → String
  | info => "info"
  | warning => "warning"

namespace Category

def all : List Category :=
  [used, internalOnly, unused, entryPoint, retained, commentedOut, disabledFrameworkOverride,
   frameworkMethod, constructor]

def tag : Category → String
  | used => "used"
  | internalOnly => "internal_only"
  | unused => "unused"
  | entryPoint => "entry_point"
  | retained => "retained"
  | commentedOut => "commented_out"
  | disabledFrameworkOverride => "disabled_framework_override"
  | frameworkMethod => "framework_method"
  | constructor => "constructor"

/-- How much a finding matters; without a severity it is not reported. -/
def severity? : Category → Option Severity
  | unused => some .warning
  | internalOnly | commentedOut | disabledFrameworkOverride => some .info
  | _ => none

def code : Category → String
  | unused => "DD001"
  | internalOnly => "DD002"
  | commentedOut => "DD003"
  | disabledFrameworkOverride => "DD004"
  | used => "DD100"
  | entryPoint => "DD101"
  | retained => "DD102"
  | frameworkMethod => "DD103"
  | constructor => "DD104"

/-- What is said about a symbol. -/
def message (kind name : String) (category : Category) : String :=
  let subject := kind ++ " '" ++ name ++ "'"
  match category with
  | unused => subject ++ " is never used"
  | internalOnly => subject ++ " is only used in its own file"
  | commentedOut => subject ++ " is commented out"
  | disabledFrameworkOverride => "framework override '" ++ name ++ "' is commented out"
  | frameworkMethod => "framework method '" ++ name ++ "' is called by the framework"
  | entryPoint => subject ++ " is an entry point"
  | retained => subject ++ " is retained"
  | constructor => "constructor '" ++ name ++ "'"
  | used => subject ++ " is used"

/-- The category that the number of uses alone gives. -/
def ofUsage (usage : UsageCounts) : Category :=
  if usage.total = 0 then unused
  else if usage.external.isEmpty then internalOnly
  else used

def ofClass (settings : Settings) (entity : ClassEntity) : Category :=
  if entity.commentedOut then commentedOut
  else if entity.entryPoint then entryPoint
  else if entity.isAnonymous || settings.retains entity.name then retained
  else ofUsage entity.usage

def ofFunction (settings : Settings) (entity : FunctionEntity) : Category :=
  if entity.commentedOut && entity.framework then disabledFrameworkOverride
  else if entity.commentedOut then commentedOut
  else if entity.isConstructor then constructor
  else if entity.entryPoint then entryPoint
  else if settings.retains entity.name then retained
  else if entity.framework && entity.usage.total == 0 then frameworkMethod
  else ofUsage entity.usage

end Category

structure Finding where
  key : SymbolKey
  name : String
  owner : String
  kind : String
  file : Path
  line : Nat
  /-- Counted from one. -/
  column : Nat
  category : Category
  internalUsages : Nat
  externalUsages : Nat
  message : String
deriving DecidableEq, Repr

namespace Finding

def ofClass (settings : Settings) (entity : ClassEntity) : Finding :=
  let category := Category.ofClass settings entity
  { key := entity.key
    name := entity.name
    owner := ""
    kind := entity.kind.displayName
    file := entity.file
    line := entity.line
    column := entity.offset + 1
    category
    internalUsages := entity.usage.internal
    externalUsages := entity.usage.externalTotal
    message := category.message entity.kind.displayName entity.name }

private def kindOfFunction (entity : FunctionEntity) : String :=
  if entity.isConstructor then "constructor"
  else if entity.isMethod then "method"
  else "function"

def ofFunction (settings : Settings) (entity : FunctionEntity) : Finding :=
  let category := Category.ofFunction settings entity
  let display :=
    if entity.isMethod && !entity.isConstructor then entity.owner ++ "." ++ entity.name
    else entity.name
  { key := entity.key
    name := entity.name
    owner := entity.owner
    kind := kindOfFunction entity
    file := entity.file
    line := entity.line
    column := entity.offset + 1
    category
    internalUsages := entity.usage.internal
    externalUsages := entity.usage.externalTotal
    message := category.message (kindOfFunction entity) display }

def severity? (finding : Finding) : Option Severity := finding.category.severity?

/-- By file, line, column and name. -/
def order (a b : Finding) : Ordering :=
  (compare a.file b.file).then <| (compare a.line b.line).then <|
    (compare a.column b.column).then (compare a.name b.name)

end Finding

/-- The findings for every symbol of a table, in order; on a par classes come before functions. -/
def categorize (settings : Settings) (table : SymbolTable) : List Finding :=
  (table.classes.values.map (Finding.ofClass settings) ++
    table.functions.values.map (Finding.ofFunction settings)).mergeSort
      fun a b => (a.order b).isLE

end DeadCode
