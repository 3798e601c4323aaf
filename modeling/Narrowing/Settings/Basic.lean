/-
Settings of an engine.

Settings name domains, a strategy and a severity by text, as a document
does.  They are checked in a fixed order, and the first thing wrong is
reported; from settings that pass, an engine can be built.
-/
import Narrowing.Settings.Version
import Narrowing.Severity
import Narrowing.Explore

namespace Narrowing

/-- The domains that values are created in, and changes to the join table. -/
structure DomainSettings where
  lift : String
  unknown : String
  index : Option (List (String × String))
  scalar : Option (List (String × String))
  /-- triples of two domains and their join -/
  joins : Option (List (List String))
deriving DecidableEq

/-- The limits of an exploration. -/
structure ExploreSettings where
  maxDepth : Int
  maxPaths : Int
  parallel : Int
deriving DecidableEq

structure LogSettings where
  level : String
  development : Bool
deriving DecidableEq

/-- Everything an engine can be told. -/
structure Settings where
  version : String
  chooseBound : UInt32
  domains : DomainSettings
  tristate : String
  explore : ExploreSettings
  log : LogSettings
deriving DecidableEq

/-- What is wrong with settings. -/
inductive SettingsError where
  /-- the version cannot be read -/
  | unreadableVersion (version : String) (cause : VersionError)
  /-- the version is not supported -/
  | unsupportedVersion (version : Version)
  /-- a field names no domain -/
  | unknownDomain (field name : String)
  /-- an entry of the joins is no triple -/
  | notTriple (place length : Nat)
  /-- the domains do not fit together -/
  | domains (cause : DomainError)
  /-- the strategy is not known -/
  | unknownStrategy (name : String)
  /-- a limit of the exploration is not positive -/
  | badLimits
  /-- the severity is not known -/
  | unknownLevel (name : String)
deriving DecidableEq

namespace SettingsError

def message : SettingsError → String
  | unreadableVersion version cause =>
    "unsupported configuration version: " ++ Text.quoted version ++ ": " ++ cause.message
  | unsupportedVersion version =>
    "unsupported configuration version: " ++ version.text ++ " does not satisfy " ++
      Version.supportedRange
  | unknownDomain field name =>
    "invalid configuration: " ++ field ++ ": unknown domain " ++ Text.quoted name
  | notTriple place length =>
    "invalid configuration: domains.joins[" ++ place.repr ++ "]: want [a, b, result], got " ++
      length.repr ++ " entries"
  | domains cause => "invalid configuration: domains: " ++ cause.message
  | unknownStrategy name =>
    "invalid configuration: product.tristate " ++ Text.quoted name
  | badLimits => "invalid configuration: explore limits must be positive"
  | unknownLevel name =>
    "invalid configuration: log.level: unrecognized level: " ++ Text.quoted name

end SettingsError

namespace LogSettings

def severity (s : LogSettings) : Except SettingsError Severity :=
  match Severity.ofName? s.level with
  | some severity => .ok severity
  | none => .error (.unknownLevel s.level)

end LogSettings

namespace DomainSettings

/-- The domain that a field names. -/
def domain (field name : String) : Except SettingsError Domain :=
  match Domain.ofName? name with
  | some d => .ok d
  | none => .error (.unknownDomain field name)

/-- The targets of a role, with the changes of a field. -/
def targets (field : String) (changes : List (String × String)) :
    Except SettingsError (Domain → Option Domain) :=
  changes.foldlM (fun target (source, goal) => do
    let s ← domain field source
    let g ← domain (field ++ "." ++ source) goal
    return fun d => if d = s then some g else target d) some

/-- The join table, with one triple of the joins at a given place. -/
def addJoin (t : JoinTable) (place : Nat) (triple : List String) :
    Except SettingsError JoinTable := do
  let field := "domains.joins[" ++ place.repr ++ "]"
  match triple with
  | [a, b, r] =>
    let a ← domain field a
    let b ← domain field b
    let r ← domain field r
    return t.set a b (some r)
  | _ => throw (.notTriple place triple.length)

/-- The join table, with all triples of the joins. -/
def joinTable (joins : List (List String)) : Except SettingsError JoinTable :=
  joins.zipIdx.foldlM (fun t (triple, place) => addJoin t place triple) .standard

/-- The options that the settings describe, if they are usable. -/
def options (s : DomainSettings) : Except SettingsError DomainOptions := do
  let lift ← domain "domains.lift" s.lift
  let unknown ← domain "domains.any" s.unknown
  let index ← targets "domains.index" (s.index.getD [])
  let scalar ← targets "domains.scalar" (s.scalar.getD [])
  let joins ← joinTable (s.joins.getD [])
  let o : DomainOptions := ⟨joins, some lift, some unknown, index, scalar⟩
  match o.validate with
  | .ok () => return o
  | .error cause => throw (.domains cause)

end DomainSettings

namespace ExploreSettings

/-- The limits, which must be positive. -/
def limits (s : ExploreSettings) : Except SettingsError Limits :=
  if s.maxDepth ≤ 0 || s.maxPaths ≤ 0 || s.parallel ≤ 0 then .error .badLimits
  else .ok ⟨s.maxDepth.toNat, s.maxPaths.toNat⟩

end ExploreSettings

/-- What settings that pass the checks amount to. -/
structure Setup where
  engine : Engine
  limits : Limits
  severity : Severity

namespace Settings

/-- The settings that hold where nothing is said. -/
def standard : Settings where
  version := "1.0.0"
  chooseBound := defaultChooseBound
  domains := ⟨Domain.constant.name, Domain.interval.name, none, none, none⟩
  tristate := Strategy.primary.name
  explore := ⟨64, 10000, 4⟩
  log := ⟨"info", false⟩

def checkVersion (s : Settings) : Except SettingsError Unit :=
  match Version.parse s.version with
  | .error cause => .error (.unreadableVersion s.version cause)
  | .ok v => if v.isSupported then .ok () else .error (.unsupportedVersion v)

def strategy (s : Settings) : Except SettingsError Strategy :=
  match Strategy.ofName? s.tristate with
  | some strategy => .ok strategy
  | none => .error (.unknownStrategy s.tristate)

/-- Check the settings: version, domains, strategy, limits, severity, in this order. -/
def setup (s : Settings) : Except SettingsError Setup := do
  s.checkVersion
  let options ← s.domains.options
  let strategy ← s.strategy
  let limits ← s.explore.limits
  let severity ← s.log.severity
  return ⟨⟨⟨options, s.chooseBound⟩, strategy⟩, limits, severity⟩

/-- Settings that pass the checks. -/
def validate (s : Settings) : Except SettingsError Settings := do
  let _ ← s.setup
  return s

/-! ## Exploration under settings -/

/-- Why settings or an exploration under them did not work out. -/
inductive RunError where
  | settings (e : SettingsError)
  | explore (e : ExploreError)

def run (s : Settings) (interrupt : Interrupt) (p : Program) :
    List Event × Except Misuse (Exploration × Option RunError) :=
  match s.setup with
  | .error e => ([], .ok (⟨.empty "", [], [], none⟩, some (.settings e)))
  | .ok setup =>
    let (events, r) := Explore.run setup.engine setup.limits interrupt p
    (events, r.map fun x => (x, x.error.map RunError.explore))

/-- Explore several programs, each for itself.  The first error is that of all. -/
def runAll (s : Settings) (interrupt : Interrupt) (ps : List Program) :
    Except Misuse (Except RunError (List Exploration)) := do
  let rs ← ps.mapM fun p => (s.run interrupt p).2
  match rs.findSome? Prod.snd with
  | some e => return .error e
  | none => return .ok (rs.map Prod.fst)

end Settings

end Narrowing
