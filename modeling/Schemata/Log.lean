import Schemata.Error

/-!
# The log of a run

A run tells what it does in events, each with a level and the component that speaks.  A failure does
not take back what has been told before it, so a `Report` keeps the events beside the outcome.
-/

namespace Schemata

/-- How much an event matters. -/
inductive Level where
  | debug
  | info
  | warning
  | error
  deriving DecidableEq

def Level.label : Level → Text
  | debug => "DEBUG".toList
  | info => "INFO".toList
  | warning => "WARNING".toList
  | error => "ERROR".toList

/-- Something worth telling about a run. -/
inductive Event where
  | annotationsExtracted (count : Nat)
  | annotationsDropped (names : List Text)
  | annotationAtEnd (name : Text)
  | fragmentsRead (count : Nat)
  | statementSkipped (line : Text)
  | declarationsParsed (count : Nat)
  | commentsLocated (count : Nat)
  /-- The interfaces of a declaration were closed; the names found, with repetitions. -/
  | interfacesClosed (name : Text) (found : List Text)
  | declarationsResolved (count : Nat)
  | instanceBuilt (core name : Text)
  | instancesBuilt (count : Nat)
  | schemaRendered (declarations instances : Nat)
  | schemaExpanded (declarations instances : Nat)
  | settingsMissing (path : Text)
  | schemaRefused (error : SchemaError) (path : Text)
  deriving DecidableEq

abbrev Log := List Event

namespace Event

def level : Event → Level
  | annotationsDropped _ | annotationAtEnd _ | statementSkipped _ | settingsMissing _ => .warning
  | schemaExpanded _ _ => .info
  | schemaRefused _ _ => .error
  | _ => .debug

def source : Event → Text
  | annotationsExtracted _ | annotationsDropped _ | annotationAtEnd _ =>
      "sdl_transpiler.metadata_extractor".toList
  | fragmentsRead _ | statementSkipped _ => "sdl_transpiler.schema_tokenizer".toList
  | declarationsParsed _ => "sdl_transpiler.declaration_parser".toList
  | commentsLocated _ => "sdl_transpiler.comment_locator".toList
  | interfacesClosed _ _ => "sdl_transpiler.interface_resolver".toList
  | declarationsResolved _ => "sdl_transpiler.inheritance_resolver".toList
  | instanceBuilt _ _ | instancesBuilt _ => "sdl_transpiler.generic_instantiator".toList
  | schemaRendered _ _ => "sdl_transpiler.serializer".toList
  | schemaExpanded _ _ => "sdl_transpiler.schema_transpiler".toList
  | settingsMissing _ => "sdl_transpiler.load_config".toList
  | schemaRefused _ _ => "sdl_transpiler.cli".toList

def message : Event → Text
  | annotationsExtracted n =>
      "Extracted ".toList ++ Text.ofInt n ++ " metadata annotations".toList
  | annotationsDropped ns =>
      "Dropping metadata ".toList ++ SchemaError.commas (ns.map ('@' :: ·))
        ++ ": no declaration or property follows it".toList
  | annotationAtEnd n => "Dropping metadata @".toList ++ n ++ " at the end of the schema".toList
  | fragmentsRead n => "Extracted ".toList ++ Text.ofInt n ++ " declaration fragments".toList
  | statementSkipped t => "Skipping unrecognized statement: ".toList ++ t
  | declarationsParsed n => "Parsed ".toList ++ Text.ofInt n ++ " declarations".toList
  | commentsLocated n => "Located ".toList ++ Text.ofInt n ++ " declaration comment blocks".toList
  | interfacesClosed n ns =>
      "Closed interfaces of ".toList ++ n ++ ": ".toList ++ SchemaError.quotedList ns
  | declarationsResolved n => "Resolved ".toList ++ Text.ofInt n ++ " declarations".toList
  | instanceBuilt c a => "Instantiated ".toList ++ c ++ " as ".toList ++ a
  | instancesBuilt n => "Materialized ".toList ++ Text.ofInt n ++ " generic instantiations".toList
  | schemaRendered d i =>
      "Rendered ".toList ++ Text.ofInt d ++ " declarations and ".toList ++ Text.ofInt i
        ++ " instantiations".toList
  | schemaExpanded d i =>
      "Transpiled ".toList ++ Text.ofInt d ++ " declarations with ".toList ++ Text.ofInt i
        ++ " generic instantiations".toList
  | settingsMissing p => "Config file ".toList ++ p ++ " not found, using defaults".toList
  | schemaRefused e p => e.message ++ " (".toList ++ p ++ ")".toList

/-- Whether an event is told to a reader: those below a warning only if asked for. -/
def isShown (verbose : Bool) (e : Event) : Bool :=
  verbose || e.level == .warning || e.level == .error

def line (e : Event) : Text :=
  e.level.label ++ " ".toList ++ e.source ++ ": ".toList ++ e.message ++ "\n".toList

end Event

def Log.warnings (log : Log) : List Text :=
  (log.filter fun e => e.level == .warning).map Event.message

/-- The events of a computation, and its outcome. -/
structure Report (α : Type) where
  log : Log := []
  outcome : Except Failure α

namespace Report

def tell (e : Event) : Report Unit :=
  ⟨[e], .ok ()⟩

def ofOutcome {α : Type} (outcome : Except Failure α) : Report α :=
  ⟨[], outcome⟩

/-- A computation that tells nothing and can only refuse the schema. -/
def ofExcept {α : Type} : Except SchemaError α → Report α
  | .ok a => ⟨[], .ok a⟩
  | .error e => ⟨[], .error (.schema e)⟩

/-- Go on with the result of a computation, telling its events first. -/
def andThen {α β : Type} (r : Report α) (f : α → Report β) : Report β :=
  match r.outcome with
  | .ok a => ⟨r.log ++ (f a).log, (f a).outcome⟩
  | .error e => ⟨r.log, .error e⟩

instance : Monad Report where
  pure a := ⟨[], .ok a⟩
  bind := andThen

end Report

end Schemata
