import ScriptHost.Binding.Arguments
import ScriptHost.Binding.Class
import ScriptHost.Binding.Enumeration
import ScriptHost.Binding.Handle

/-!
# Requests

Native code of the host acts on a machine by requests. This is the whole list of them: what is not on it native code cannot do,
so what every request keeps, native code keeps. Native code may look at the whole machine, and whatever it learns from that is
an answer; the requests beside `look` are the ones that change something.

A program (`Prog`) asks one request after another and goes on with the answer. An answer may be a fault, which a program may
pass on, as `request` does, or treat as it likes (`attempt`).
-/

namespace ScriptHost

variable {χ σ α β : Type}

/-- What native code can ask of a machine. -/
inductive Request (χ σ : Type) where
  /-- The machine as it is. -/
  | look
  /-- Changes what the host keeps of its own. -/
  | keep (memory : σ)
  | newTable
  | newUserdata (payload : Payload)
  | newFunction (name : String) (code : Code χ) (upvalues : List Value)
  | push (v : Value)
  | pop
  | setTop (height : Nat)
  | pin (v : Value)
  | unpin (p : Pin)
  | rawSet (t : Ref) (key v : Value)
  | remove (t : Ref) (key : Value)
  | setMetatable (v : Value) (mt : Option Ref)
  | setEnvironment (u : Ref) (env : Option Ref)
  | setPayload (u : Ref) (payload : Payload)
  | metatableNamed (name : String)
  | index (v key : Value)
  | setIndex (target key v : Value)
  | call (f : Value) (args : List Value)
  | callMethod (v : Value) (name : String) (args : List Value)
  | collect
  | ensureHandle (a : Address)
  | unregister (a : Address)
  | wrap (a : Address) (name : String)
  | isKindOf (v : Value) (name : String)
  | installClasses (classes : List (ClassDescriptor χ))
  | newReader (name : String) (cls : Ref) (bases : List Ref)
  | defineEnums (enums : List EnumDescriptor)
  | stage (payload : Payload)
  | stageInteger (v : Value)
  | stageArguments (v : Value)
  | newTexts (texts : List String)

namespace Request

/-- What a request is answered with. -/
@[reducible] def Answer : Request χ σ → Type
  | look => Machine χ σ
  | newTable | newUserdata _ | newFunction .. | ensureHandle _ | newReader .. | stage _ | newTexts _ => Ref
  | pop | index .. | wrap .. => Value
  | pin _ => Pin
  | unpin _ | remove .. => Option Value
  | setPayload .. | isKindOf .. => Bool
  | metatableNamed _ => Ref × Bool
  | call .. | callMethod .. => List Value
  | collect => Nat
  | stageInteger _ => StagedInteger
  | stageArguments _ => StagedArguments
  | keep _ | push _ | setTop _ | rawSet .. | setMetatable .. | setEnvironment .. | setIndex .. | unregister _
  | installClasses _ | defineEnums _ => Unit

/-- What the machine does on a request. -/
def perform (call : Caller χ σ) : (r : Request χ σ) → Action χ σ r.Answer
  | .look => Action.look
  | .keep memory => Action.modify (fun m => { m with host := memory })
  | .newTable => Action.newTable
  | .newUserdata payload => Action.newUserdata payload
  | .newFunction name code upvalues => Action.newFunction name code upvalues
  | .push v => Action.push v
  | .pop => Action.pop
  | .setTop height => Action.setTop height
  | .pin v => Action.pin v
  | .unpin p => Action.unpin p
  | .rawSet t key v => Action.rawSet t key v
  | .remove t key => Action.remove t key
  | .setMetatable v mt => Action.setMetatable v mt
  | .setEnvironment u env => Action.setEnvironment u env
  | .setPayload u payload => Action.setPayload u payload
  | .metatableNamed name => Action.metatableNamed name
  | .index v key => Action.index call v key
  | .setIndex target key v => Action.setIndex call target key v
  | .call f args => call f args
  | .callMethod v name args => Action.callMethod call v name args
  | .collect => Action.collect call
  | .ensureHandle a => Action.ensureHandle a
  | .unregister a => Action.unregister a
  | .wrap a name => Action.wrap a name
  | .isKindOf v name => Action.isKindOf call v name
  | .installClasses classes => ClassDescriptor.installAll classes
  | .newReader name cls bases => Attribute.newReader name cls bases
  | .defineEnums enums => EnumDescriptor.defineAll enums
  | .stage payload => Cell.stage payload
  | .stageInteger v => Arguments.stageInteger v
  | .stageArguments v => Arguments.ofValue v
  | .newTexts texts => Arguments.toTable texts

end Request

/-- A program of the host: it is done, or fails, or asks a request and goes on with what comes of it. -/
inductive Prog (χ σ α : Type) where
  | done (a : α)
  | fail (e : Fault)
  | ask (r : Request χ σ) (next : Except Fault r.Answer → Prog χ σ α)

namespace Prog

/-- One program after another; the second is not run when the first fails. -/
protected def bind : Prog χ σ α → (α → Prog χ σ β) → Prog χ σ β
  | done a, f => f a
  | fail e, _ => fail e
  | ask r next, f => ask r (fun answer => (next answer).bind f)

instance : Monad (Prog χ σ) where
  pure := done
  bind := Prog.bind

instance : Inhabited (Prog χ σ α) := ⟨fail .overflow⟩

/-- The program that answers or fails as told. -/
def ofExcept : Except Fault α → Prog χ σ α
  | .ok a => done a
  | .error e => fail e

/-- The program that asks one request, and fails if that fails. -/
def request (r : Request χ σ) : Prog χ σ r.Answer := ask r ofExcept

/-- The program that looks at the machine. -/
def look : Prog χ σ (Machine χ σ) := request .look

/-- The program that reads something off the machine. -/
def query (f : Machine χ σ → Except Fault α) : Prog χ σ α := look >>= fun m => ofExcept (f m)

/-- The program that answers with the fault of another instead of failing. -/
def attempt : Prog χ σ α → Prog χ σ (Except Fault α)
  | done a => done (.ok a)
  | fail e => done (.error e)
  | ask r next => ask r (fun answer => (next answer).attempt)

/-- What a program does to the machine. -/
def run (call : Caller χ σ) : Prog χ σ α → Action χ σ α
  | done a => Action.pure a
  | fail e => Action.fail e
  | ask r next => fun m =>
    let (answer, m) := r.perform call m
    (next answer).run call m

end Prog

end ScriptHost
