import ScriptHost.Request

/-!
# Calls

A call puts the function and its arguments on the stack, where they stay while the function runs, and takes off whatever is
above the old top when it is over, whether it answered or failed. Calls nest no deeper than the limits say, so the depth that
is left bounds the recursion.
-/

namespace ScriptHost

variable {χ σ α : Type}

/-- What the host supplies: the program that each code of its own stands for. -/
abbrev Host (χ σ : Type) : Type := χ → Call → Prog χ σ (List Value)

/-- What a code does when it is called. -/
def Code.run (Γ : Host χ σ) (call : Caller χ σ) : Code χ → Call → Action χ σ (List Value)
  | .readAttribute, c => Attribute.read call c
  | .writeAttribute, c => Attribute.write c
  | .finalizeHandle, c => Attribute.finalize call c
  | .host code, c => (Γ code c).run call

namespace Machine

/-- The function that a value refers to, if the machine may call it with some arguments. What the value says it is comes first,
then the limits, then whether the function is there. -/
def callee (m : Machine χ σ) (f : Value) (args : List Value) : Except Fault (NativeFunction χ) :=
  match f with
  | .function r =>
    if m.limits.maxCallDepth ≤ m.depth ∨ m.limits.stackLimit < m.stack.size + args.length + 1 then .error .overflow
    else m.heap.function r
  | v => .error (.type (.notCallable v.typeName))

/-- The machine with a call under way. -/
def enter (m : Machine χ σ) (f : Value) (args : List Value) : Machine χ σ :=
  { m with stack := m.stack ++ (f :: args).toArray, depth := m.depth + 1 }

/-- The machine with a call over that began at a height of the stack. -/
def leave (m : Machine χ σ) (height : Nat) : Machine χ σ :=
  { m with stack := m.stack.take height, depth := m.depth - 1 }

end Machine

/-- Calls a function value whose function does what `body` says of its code. -/
def callWith (body : Code χ → Call → Action χ σ (List Value)) : Caller χ σ := fun f args m =>
  match m.callee f args with
  | .error e => (.error e, m)
  | .ok function =>
    let height := m.stack.size
    let (result, m) := body function.code ⟨args, function.upvalues⟩ (m.enter f args)
    (result.mapError Fault.inScript, m.leave height)

/-- Calls a function value with room for so many more calls inside each other. Without room the limits refuse the call. -/
def callWithin (Γ : Host χ σ) : Nat → Caller χ σ
  | 0 => callWith (fun _ _ => Action.fail .overflow)
  | room + 1 => callWith (fun code c => code.run Γ (callWithin Γ room) c)

/-- Calls a function value. The room is the depth that the limits leave. -/
def call (Γ : Host χ σ) : Caller χ σ := fun f args m => callWithin Γ (m.limits.maxCallDepth - m.depth) f args m

/-- Runs a program of the host outside of any call. -/
def Prog.exec (Γ : Host χ σ) (p : Prog χ σ α) : Action χ σ α := p.run (call Γ)

end ScriptHost
