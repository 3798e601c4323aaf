/-
Settings from a document.

Fields left out keep the standard settings.  A field that is not known, a
field given twice or a value of the wrong kind makes the document
malformed.
-/
import Narrowing.Settings.Basic
import Narrowing.Document.Composition
import Narrowing.Document.Fields

namespace Narrowing

/-- Why no settings could be loaded. -/
inductive LoadError where
  /-- there is no document -/
  | missing
  /-- the document cannot be read -/
  | malformed
  /-- the settings do not pass the checks -/
  | invalid (e : SettingsError)
deriving DecidableEq

namespace LoadError

/-- The written form, for a document read from a file if one is named. -/
def message (file : Option String) : LoadError → String
  | missing => "open " ++ file.getD "" ++ ": no such file or directory"
  | malformed => "malformed document"
  | invalid e =>
    match file with
    | some name => name ++ ": " ++ e.message
    | none => e.message

end LoadError

namespace Settings

open Document (Tree field?)

def domainsOf? (n : Tree) (s : DomainSettings) : Option DomainSettings := do
  let fs ← n.fields? ["lift", "any", "index", "scalar", "joins"]
  return {
    lift := ← field? fs "lift" Tree.text? s.lift
    unknown := ← field? fs "any" Tree.text? s.unknown
    index := ← field? fs "index" (fun n => n.textMap?.map some) s.index
    scalar := ← field? fs "scalar" (fun n => n.textMap?.map some) s.scalar
    joins := ← field? fs "joins" (fun n => n.textLists?.map some) s.joins }

def exploreOf? (n : Tree) (s : ExploreSettings) : Option ExploreSettings := do
  let fs ← n.fields? ["max_depth", "max_paths", "parallel"]
  return {
    maxDepth := ← field? fs "max_depth" Tree.int64? s.maxDepth
    maxPaths := ← field? fs "max_paths" Tree.int64? s.maxPaths
    parallel := ← field? fs "parallel" Tree.int64? s.parallel }

def logOf? (n : Tree) (s : LogSettings) : Option LogSettings := do
  let fs ← n.fields? ["level", "development"]
  return {
    level := ← field? fs "level" Tree.text? s.level
    development := ← field? fs "development" Tree.truth? s.development }

/-- The strategy named by a node. -/
def tristateOf? (n : Tree) (default : String) : Option String := do
  let fs ← n.fields? ["tristate"]
  field? fs "tristate" Tree.text? default

def ofTree? (n : Tree) : Option Settings := do
  let s := standard
  let fs ← n.fields? ["version", "choose_bound", "domains", "product", "explore", "log"]
  return {
    version := ← field? fs "version" Tree.text? s.version
    chooseBound := ← field? fs "choose_bound" Tree.uint32? s.chooseBound
    domains := ← field? fs "domains" (domainsOf? · s.domains) s.domains
    tristate := ← field? fs "product" (tristateOf? · s.tristate) s.tristate
    explore := ← field? fs "explore" (exploreOf? · s.explore) s.explore
    log := ← field? fs "log" (logOf? · s.log) s.log }

/-- The settings of a document, if they pass the checks. -/
def ofDocument (text : String) : Except LoadError Settings :=
  match (Document.parse? text).bind ofTree? with
  | none => .error .malformed
  | some s => s.validate.mapError LoadError.invalid

/-- The settings of a file, given by its content if it is there. -/
def load : Option String → Except LoadError Settings
  | none => .error .missing
  | some text => ofDocument text

end Settings

end Narrowing
