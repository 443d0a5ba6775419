import ScriptHost.Proofs.During

/-!
# Runs

The machines that a run goes through (`Reached`): a new machine, and from each of them the machine after a request, the one on
which the body of a function begins, the one a collection leaves to its finalizers, and the one at each of their turns. Native
code asks for what a predicate on requests permits, so that statements can be about a part of the requests. A stable set of
machines that has the new ones has all of them (`Reached.keep`).
-/

namespace ScriptHost

variable {χ σ α : Type}

/-- The machines a run goes through, at the top and inside of calls and collections, when native code asks for what is
permitted. -/
inductive Reached (Γ : Host χ σ) (P : Machine χ σ → Request χ σ → Prop) : Machine χ σ → Prop where
  | start (limits : Limits) (host : σ) : Reached Γ P (.start limits host)
  | request {m : Machine χ σ} (hm : Reached Γ P m) (r : Request χ σ) (hr : P m r) :
      Reached Γ P (r.perform (call Γ) m).2
  | enter {m : Machine χ σ} {f : Value} {args : List Value} {function : NativeFunction χ} (hm : Reached Γ P m)
      (hf : m.callee f args = .ok function) : Reached Γ P (m.enter f args)
  | swept {m : Machine χ σ} (hm : Reached Γ P m) (hc : m.collecting = false) : Reached Γ P m.swept
  | turn {m : Machine χ σ} {t : Turn χ σ} (hm : Reached Γ P m) (hc : m.collecting = false)
      (ht : t ∈ turns (call Γ) m.swept.pending m.swept) : Reached Γ P t.machine

/-- Whatever native code asks for in a run, from the machine on that a call of it begins with, is permitted where it is asked. It
may rely on what all machines of a run have. -/
def Host.Lawful (Γ : Host χ σ) (P : Machine χ σ → Request χ σ → Prop) (I : Machine χ σ → Prop) : Prop :=
  ∀ m f args function k, Reached Γ P m → I m → m.callee f args = .ok function → function.code = .host k →
    (Γ k ⟨args, function.upvalues⟩).Obeys P (call Γ) (m.enter f args)

variable {Γ : Host χ σ} {P : Machine χ σ → Request χ σ → Prop}

/-- A program that asks for what is permitted goes from one machine of a run to another. -/
theorem Reached.exec (p : Prog χ σ α) {m : Machine χ σ} (hm : Reached Γ P m) (hp : p.Obeys P (call Γ) m) :
    Reached Γ P (p.exec Γ m).2 := by
  induction p generalizing m with
  | done a => exact hm
  | fail e => exact hm
  | ask r next ih => exact ih _ (hm.request r hp.1) hp.2

/-- A program that asks for something permitted obeys if what it does with the answer obeys. -/
theorem Prog.obeys_request {c : Caller χ σ} {m : Machine χ σ} {r : Request χ σ} {next : r.Answer → Prog χ σ α} (hr : P m r)
    (hnext : ∀ a, (r.perform c m).1 = .ok a → (next a).Obeys P c (r.perform c m).2) :
    (Prog.request r >>= next).Obeys P c m := by
  show P m r ∧ ((Prog.ofExcept (r.perform c m).1).bind next).Obeys P c (r.perform c m).2
  refine ⟨hr, ?_⟩
  cases h : (r.perform c m).1 with
  | ok a => exact hnext a h
  | error e => trivial

/-- The machines of a run, where reading is permitted. -/
theorem visited_reached (hread : ∀ m v key, P m (.index v key)) : Visited (call Γ) P (Reached Γ P) :=
  ⟨fun _ r hm hr => hm.request r hr, fun _ v key hm => hm.request (.index v key) (hread _ v key),
    fun _ hm hc _ ht => hm.turn hc ht⟩

/-- What new machines have and requests, calls and collections keep, all machines of a run have. -/
theorem Reached.keep {I : Machine χ σ → Prop} (hI : Stable I P) (hread : ∀ m v key, P m (.index v key))
    (hΓ : Γ.Lawful P I) (hstart : ∀ limits host, I (.start limits host))
    (henter : ∀ m f args function, I m → m.callee f args = .ok function → I (m.enter f args))
    (hleave : ∀ m height, I m → I (m.leave height)) {m : Machine χ σ} (hm : Reached Γ P m) : I m := by
  have hR : Visited (call Γ) P (Reached Γ P) := visited_reached hread
  have hcall := call_keeps hI hR hΓ (fun m f args function hr hm hf => ⟨hr.enter hf, henter m f args function hm hf⟩) hleave
  induction hm with
  | start limits host => exact hstart limits host
  | request hm r hr ih => exact (hI.perform hR hcall hm ih hr).2
  | enter _ hf ih => exact henter _ _ _ _ ih hf
  | swept _ hc ih => exact hI.swept _ ih hc
  | turn hm hc ht ih =>
    obtain ⟨-, -, hturns⟩ := Action.agree_finalizeAll hcall (hI.queue _ ih hc) _ _ (hR.turn _ hm hc) (hI.swept _ ih hc)
    exact (hturns _ ht).1

/-- Nothing depends on what is permitted. -/
theorem Reached.all {m : Machine χ σ} (hm : Reached Γ P m) : Reached Γ (fun _ _ => True) m := by
  induction hm with
  | start limits host => exact .start limits host
  | request _ r _ ih => exact ih.request r trivial
  | enter _ hf ih => exact ih.enter hf
  | swept _ hc ih => exact ih.swept hc
  | turn _ hc ht ih => exact ih.turn hc ht

/-- What every request there is keeps, all machines of a run have, whatever the host supplies. -/
theorem Reached.keep_all {I : Machine χ σ → Prop} (hI : Stable I (fun _ _ => True)) (hstart : ∀ limits host, I (.start limits host))
    (henter : ∀ m f args function, I m → m.callee f args = .ok function → I (m.enter f args))
    (hleave : ∀ m height, I m → I (m.leave height)) {m : Machine χ σ} (hm : Reached Γ P m) : I m :=
  hm.all.keep hI (fun _ _ _ => trivial) (fun _ _ _ _ _ _ _ _ _ => Prog.obeys_all _ _) hstart henter hleave

/-- The free slots of every machine of a run are free. -/
theorem Reached.wellFormed {m : Machine χ σ} (hm : Reached Γ P m) : m.heap.WellFormed :=
  hm.keep_all stable_wellFormed Machine.wellFormed_start (fun _ _ _ _ h _ => h) (fun _ _ h => h)

end ScriptHost
