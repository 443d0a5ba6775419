import ScriptHost.Proofs.Installing
import ScriptHost.Proofs.Interning

/-!
# What a handle unwraps to

The events of a course give an account of each handle: the address it was made for, the class it was last wrapped as, and whether
its address was unregistered while the handle was listed for it (`Machine.accountOf`). One event after the other, the handle has
the payload and the metatable that its account says (`Machine.Managed.recorded_after`). A class table says `true` of the name of
its class at most (`Machine.Marked`). So a handle unwraps as an object of the class it was last wrapped as, once that is
installed, and of no other class, and what it unwraps to is in its account (`unwrap_exact`).
-/

namespace ScriptHost

variable {χ σ : Type} {S : Scope} {strict : Prop}

/-! ## What class tables say `true` of -/

namespace Machine

/-- The table of a class says `true` of the name of the class, and of nothing else. -/
def Marked (m : Machine χ σ) : Prop :=
  ∀ name ∉ Registry.reserved, ∀ t T, m.Registered name t → m.heap.object? t = some (.table T) →
    ∀ k, T.get k = .boolean true → k = .string name

variable {m m' : Machine χ σ} {a : Address} {h t : Ref} {u : Userdata} {T D : String}

theorem marked_start (limits : Limits) (host : σ) : (start limits host : Machine χ σ).Marked :=
  fun name _ t _ ht => (not_registered_start limits host name t ht).elim

theorem Act.marked (h : m.Act S m') (hm : m.Orderly S.strict) (hmarks : m.Marked) : m'.Marked := by
  intro name hname t T' ht hT' k hk
  rcases h.registered_of hm ht with ht | hf
  · obtain ⟨hne, T, hT⟩ := hm.unshared.registered name t ht
    obtain ⟨o, ho, hb⟩ := h.old t _ hT
    cases hT'.symm.trans ho
    cases hb with
    | same => exact hmarks name hname t _ ht hT k hk
    | loose hs => exact absurd (Sealed.of_registered ht) hs
    | classed _ ht' _ hnew =>
      obtain rfl := hm.name_eq ht ht'
      exact (hnew k hk).elim (hmarks name hname t T ht hT k) id
    | own hn ht' => exact absurd (hm.name_eq ht ht' ▸ hn) hname
    | named e => exact absurd e hne
    | counted _ e => exact absurd e hne
  · obtain ⟨T, hT, hclass, -⟩ := hf.table
    cases hT'.symm.trans hT
    exact absurd hk ((hclass hname).2 k)

/-- A table that loses entries says `true` of nothing new. -/
theorem Orderly.marked_swept (hm : m.Orderly strict) (hmarks : m.Marked) : m.swept.Marked := by
  intro name hname t T' ht hT' k hk
  obtain ⟨ht, T, hT, rfl⟩ := hm.exists_of_swept ht hT'
  have hmem := (mem_remaining_iff.1 (Table.mem_of_find? (Table.find?_of_get hk nofun))).1
  have hfind := (hm.wellFormed.unique t T hT).mem_entries_iff.1 hmem
  exact hmarks name hname t T ht hT k (by rw [Table.get, hfind, Option.getD_some])

/-- The metatable of an object of a class says `true` of that class alone, and only once it is installed. -/
theorem Orderly.isMarked_iff (hm : m.Orderly strict) (hmarks : m.Marked) (hu : m.heap.object? h = some (.userdata u))
    (hmt : u.metatable = some t) (hT : T ∉ Registry.reserved) (ht : m.Registered T t) :
    m.isMarked (.userdata h) D = true ↔ D = T ∧ m.isInstalled T = true := by
  obtain ⟨R, hR, -⟩ := hm.unshared.registry
  obtain ⟨-, C, hC⟩ := hm.unshared.registered T t ht
  have hmarked : m.isMarked (.userdata h) D = true ↔ C.field D = .boolean true := by
    simp only [isMarked, metatable, Heap.userdata_eq_ok_iff.2 hu, hmt, rawField, Heap.table_eq_ok_iff.2 hC]
    cases C.field D <;> simp
  have hinstalled : m.isInstalled T = true ↔ C.field T = .boolean true := by
    rw [isInstalled_iff]
    simp only [classTable?_eq_some_iff hR]
    constructor
    · rintro ⟨t', ht', C', hC', hmark⟩
      obtain rfl := ht'.eq ht
      cases hC.symm.trans hC'
      exact hmark
    · exact fun hmark => ⟨t, ht, C, hC, hmark⟩
  rw [hmarked, hinstalled]
  constructor
  · intro hmark
    obtain rfl := Key.string.inj (hmarks T hT t C ht hC (.string D) hmark)
    exact ⟨rfl, hmark⟩
  · rintro ⟨rfl, hmark⟩
    exact hmark

end Machine

theorem Course.marked {m : Machine χ σ} {es : List (Event χ σ)} (h : Course (Machine.Minds S) m es)
    (hS : ∀ t, ¬S.spared t) (hm : m.Managed S.strict) (hmarks : m.Marked) : (m.follow es).Marked :=
  (h.frame hS (fun _ _ hm hact hmarks => hact.marked hm.orderly hmarks) (fun _ hm hmarks => hm.orderly.marked_swept hmarks) hm
    hmarks).2

/-! ## What becomes of the handle in an event -/

namespace Machine

/-- The userdata is a handle, for whatever address. -/
def HasHandle (m : Machine χ σ) (r : Ref) (u : Userdata) : Prop :=
  m.heap.object? r = some (.userdata u) ∧ ∃ a, u.payload = .handle a

variable {m m' : Machine χ σ} {a : Address} {h r : Ref} {u : Userdata} {e : Event χ σ} {name : String}

/-- Where no handle is listed and none is forgotten, all of them are what they were. -/
theorem Act.hasHandle_iff (h : m.Act S m') (hlists : ∀ a, ¬S.lists a) (hforgets : ∀ a, ¬S.forgets a) :
    m'.HasHandle r u ↔ m.HasHandle r u := by
  constructor
  · rintro ⟨hu, a, hpay⟩
    rcases h.old_or_new hu with ⟨o, ho, hb⟩ | ⟨-, hb⟩
    · cases hb with
      | same => exact ⟨ho, a, hpay⟩
      | other _ hn => exact absurd hpay (hn a)
      | dressed _ _ hl =>
        obtain ⟨b, hb⟩ := hl
        exact absurd hb (hlists b)
      | forgotten hf => exact absurd hf (hforgets _)
    · cases hb with
      | userdata hp => exact absurd hpay (hp a)
      | handle hl => exact absurd hl (hlists _)
  · rintro ⟨hu, a, hpay⟩
    obtain ⟨o, ho, hb⟩ := h.old r _ hu
    cases hb with
    | same => exact ⟨ho, a, hpay⟩
    | other hn => exact absurd hpay (hn a)
    | dressed _ _ hl =>
      obtain ⟨b, hb⟩ := hl
      exact absurd hb (hlists b)
    | forgotten hf => exact absurd hf (hforgets _)

/-- An event that asks for no handle, unregisters nothing and does not sweep leaves every handle as it is. -/
theorem Managed.hasHandle_after_iff (hm : m.Managed strict) (he : m.Allows (Minds (.wide strict)) e) (hask : ∀ a, ¬e.AsksFor a)
    (hunregister : ∀ a, ¬e.Unregisters a) (hsweep : e ≠ .sweep) : (m.after e).HasHandle r u ↔ m.HasHandle r u := by
  let S : Scope := { Scope.wide strict with lists := fun _ => False, forgets := fun _ => False }
  have he' : m.Allows (Minds S) e :=
    he.within .rfl (fun _ h => h) (fun a ha => hask a ha) (fun a ha => hunregister a ha) fun _ (hs : False) => hs.elim
  have hacts : Acts S m (m.after e) := hm.acts_after (S := S) (fun _ hs => hs.elim) he' hsweep fun _ _ _ _ hs => hs.elim
  exact lasts_of_act (K := fun m' => m'.HasHandle r u ↔ m.HasHandle r u)
    (fun _ _ _ hact hk => (hact.hasHandle_iff (fun _ h => h) fun _ h => h).trans hk) m _ hacts .rfl

/-- Names stay with their tables in every event. -/
theorem Managed.registered_after (hm : m.Managed strict) (he : m.Allows (Minds (.wide strict)) e) {t : Ref}
    (ht : m.Registered name t) : (m.after e).Registered name t := by
  have hsingle : Course (Minds (.wide strict)) m [e] := ⟨he, trivial⟩
  exact (hsingle.frame (fun _ h => h) (I := fun m => m.Registered name t) (fun _ _ hm hact ht => hact.registered hm.orderly ht)
    (fun _ hm ht => (hm.orderly.unshared.swept_registered_iff name t).2 ht) hm ht).2

/-- Asking for the handle of an address gives one that is listed. It is made if it was not there, and no other userdata is touched
or made. -/
theorem Managed.ensureHandle_spec (hm : m.Managed strict) (a : Address) :
    ∃ r m', Action.ensureHandle a m = (.ok r, m') ∧ m'.IsHandle r a false ∧
      (∀ s u, m.heap.object? s = some (.userdata u) → m'.heap.object? s = some (.userdata u)) ∧
      ∀ s u, s ≠ r → m'.heap.object? s = some (.userdata u) → m.heap.object? s = some (.userdata u) := by
  obtain ⟨r, m', h, -, hkept, hmade⟩ := hm.exists_ensureHandle a
  obtain ⟨⟨hm', -⟩, -, hr⟩ := Action.acts_ensureHandle (S := .wide strict) (L := fun _ => True) (fun _ _ _ h => h) (a := a) trivial
    m ⟨hm, fun _ h => h.elim⟩ trivial
  rw [h] at hm' hr
  exact ⟨r, m', h, Managed.isHandle_of_lists hm' (hr r rfl).1, hkept, hmade⟩

/-- Wrapping an address gives its handle, with the table under the name for its metatable. It is made if it was not there, and no
other userdata is touched or made. -/
theorem Managed.wrap_spec (hm : m.Managed strict) (ha : a ≠ Address.null) (hname : name ∉ Registry.reserved) :
    ∃ r t u m', Action.wrap a name m = (.ok (.userdata r), m') ∧ m'.IsHandle r a false ∧ m'.Registered name t ∧
      m'.heap.object? r = some (.userdata { u with metatable := some t }) ∧
      (∀ u₀, m.heap.object? r = some (.userdata u₀) → u = u₀) ∧
      ∀ s u, s ≠ r → (m'.heap.object? s = some (.userdata u) ↔ m.heap.object? s = some (.userdata u)) := by
  obtain ⟨r, t, m₁, m₂, m₃, u, h, -, hkept, hmade, hnamed, hu, hwritten⟩ := hm.exists_wrap ha name
  have hway : ∀ n, some name = some n → n ∉ Registry.reserved := fun _ e => Option.some.inj e ▸ hname
  obtain ⟨r', m', h', hlists, hacts⟩ := Managed.handleAs_spec (S := { Scope.wide strict with forgets := fun _ => False }) hm
    (fun _ h => h.elim) ha trivial (fun h => h) hway
  cases h.symm.trans h'
  have hhandle : m₃.IsHandle r a false := (hacts.managed hm).isHandle_of_lists hlists
  -- the table gets its name before the handle gets the table
  obtain ⟨ht₂, hkept₂, hmade₂⟩ : m₂.Registered name t ∧
      (∀ s u, m₁.heap.object? s = some (.userdata u) → m₂.heap.object? s = some (.userdata u)) ∧
      ∀ s u, m₂.heap.object? s = some (.userdata u) → m₁.heap.object? s = some (.userdata u) := by
    rcases hnamed with ⟨rfl, ht⟩ | hregisters
    · exact ⟨ht, fun _ _ h => h, fun _ _ h => h⟩
    · obtain ⟨R, hR, -⟩ := hregisters.added
      exact ⟨(hregisters.registered_iff name t).2 (Or.inl ⟨rfl, rfl⟩),
        fun s u hs => hregisters.kept s _ (Heap.ne_of_table_of_userdata hR hs).symm hs, hregisters.userdata⟩
  refine ⟨r, t, u, m₃, h, hhandle, ?_, hwritten.self, fun u₀ hu₀ => ?_, fun s u hs => ?_⟩
  · obtain ⟨R, hR, -⟩ := id ht₂
    refine (registered_congr ?_ name t).2 ht₂
    rw [hwritten.registry, hwritten.other (Heap.ne_of_table_of_userdata hR hu)]
  · cases hu.symm.trans (hkept₂ r u₀ (hkept r u₀ hu₀))
    rfl
  · rw [hwritten.other hs]
    exact ⟨fun h => hmade s u hs (hmade₂ s u h), fun h => hkept₂ s u (hkept s u h)⟩

end Machine

/-! ## The account of a handle -/

/-- What the events so far say of a handle: the address it was made for, the class it was last wrapped as, if any, and whether the
address was unregistered while the handle was listed for it. -/
structure Account where
  address : Address
  named : Option String
  gone : Bool
  deriving DecidableEq, Repr

namespace Account

/-- The address a handle with the account stands for. -/
def stands (b : Account) : Address := if b.gone then Address.null else b.address

theorem nonNull?_stands (b : Account) (hnull : b.address ≠ Address.null) :
    Address.nonNull? b.stands = if b.gone then none else some b.address := by
  unfold Address.nonNull? stands
  cases b.gone <;> simp [hnull]

/-- The account when an address is unregistered for which the handle is listed. -/
def unregister (b : Account) (a : Address) : Account := if a = b.address then { b with gone := true } else b

@[simp] theorem address_unregister (b : Account) (a : Address) : (b.unregister a).address = b.address := by
  unfold unregister
  split <;> rfl

@[simp] theorem named_unregister (b : Account) (a : Address) : (b.unregister a).named = b.named := by
  unfold unregister
  split <;> rfl

/-- Without its address a handle stands for nothing. -/
theorem stands_unregister (b : Account) : (b.unregister b.stands).stands = Address.null := by
  have hgone : (b.unregister b.stands).gone = true := by
    cases hg : b.gone with
    | false => rw [stands, hg, unregister, if_pos (by simp)]
    | true =>
      unfold unregister
      split
      · rfl
      · exact hg
  rw [stands, if_pos hgone]

end Account

/-- What an event that happens to a machine adds to the account of a handle. -/
def Event.note (m : Machine χ σ) (h : Ref) (e : Event χ σ) (account : Option Account) : Option Account :=
  match e with
  | .ask (.ensureHandle a) =>
    if (Action.ensureHandle a m).1.toOption = some h then some (account.getD ⟨a, none, false⟩) else account
  | .ask (.wrap a name) =>
    if (Action.wrap a name m).1.toOption = some (.userdata h) then
      some { account.getD ⟨a, none, false⟩ with named := some name }
    else account
  | .ask (.unregister a) =>
    if (m.handleOf a).toOption = some (some h) then account.map fun b => b.unregister a else account
  | .sweep => if m.swept.heap.contains h then account else none
  | _ => account

namespace Machine

/-- The account of a handle after events, one after the other. There is none as long as the handle was not made, and none any more
when it was freed. -/
def accountOf (h : Ref) : Machine χ σ → List (Event χ σ) → Option Account → Option Account
  | _, [], account => account
  | m, e :: es, account => accountOf h (m.after e) es (e.note m h account)

/-- The handle was made for an address and has the table of a class. -/
structure WrappedAs (m : Machine χ σ) (b : Account) (u : Userdata) (T : String) : Prop where
  unreserved : T ∉ Registry.reserved
  nonNull : b.address ≠ Address.null
  table : ∃ t, m.Registered T t ∧ u.metatable = some t

/-- The handle is as its account says. If there is none, it is no handle. -/
inductive Recorded (m : Machine χ σ) (h : Ref) : Option Account → Prop where
  | unknown (hnone : ∀ u, ¬m.HasHandle h u) : Recorded m h none
  | known {b : Account} {u : Userdata} (hu : m.HasHandle h u) (hpay : u.payload = .handle b.stands)
      (hnamed : ∀ T, b.named = some T → m.WrappedAs b u T) : Recorded m h (some b)

variable {m m' : Machine χ σ} {a : Address} {h r : Ref} {u : Userdata} {e : Event χ σ} {account : Option Account}
  {name : String}

theorem WrappedAs.imp {b : Account} {T : String} (hw : m.WrappedAs b u T) (hnames : ∀ t, m.Registered T t → m'.Registered T t) :
    m'.WrappedAs b u T :=
  ⟨hw.unreserved, hw.nonNull, hw.table.imp fun t ht => ⟨hnames t ht.1, ht.2⟩⟩

/-- A handle that is what it was is as its account said. -/
theorem Recorded.congr (hrec : m.Recorded h account) (hsame : ∀ u, m'.HasHandle h u ↔ m.HasHandle h u)
    (hnames : ∀ T t, m.Registered T t → m'.Registered T t) : m'.Recorded h account := by
  cases hrec with
  | unknown hnone => exact .unknown fun u hu => hnone u ((hsame u).1 hu)
  | known hu hpay hnamed => exact .known ((hsame _).2 hu) hpay fun T hT => (hnamed T hT).imp (hnames T)

/-- The account of a handle after it was asked for. -/
theorem Managed.recorded_ensureHandle (hm : m.Managed strict)
    (hnames : ∀ T t, m.Registered T t → (Action.ensureHandle a m).2.Registered T t) (hrec : m.Recorded h account) :
    (Action.ensureHandle a m).2.Recorded h (Event.note m h (.ask (.ensureHandle a)) account) := by
  obtain ⟨r, m', hrun, ⟨u, hu, hpay, -⟩, hkept, hmade⟩ := hm.ensureHandle_spec a
  simp only [Event.note, hrun, Except.toOption, Option.some.injEq] at hnames ⊢
  by_cases hr : r = h
  · subst hr
    rw [if_pos rfl]
    cases hrec with
    | unknown _ => exact .known ⟨hu, a, hpay⟩ hpay fun T hT => absurd hT.symm (Option.some_ne_none T)
    | known hu₀ hpay₀ hnamed =>
      cases (hkept r _ hu₀.1).symm.trans hu
      exact .known ⟨hu, hu₀.2⟩ hpay₀ fun T hT => (hnamed T hT).imp (hnames T)
  · rw [if_neg hr]
    exact hrec.congr (fun v => and_congr_left fun _ => ⟨hmade h v (Ne.symm hr), hkept h v⟩) hnames

/-- The account of a handle after it was wrapped. -/
theorem Managed.recorded_wrap (hm : m.Managed strict) (hname : a = Address.null ∨ name ∉ Registry.reserved)
    (hnames : ∀ T t, m.Registered T t → (Action.wrap a name m).2.Registered T t) (hrec : m.Recorded h account) :
    (Action.wrap a name m).2.Recorded h (Event.note m h (.ask (.wrap a name)) account) := by
  by_cases ha : a = Address.null
  · have hnil : Action.wrap a name m = (.ok .nil, m) := by
      rw [Action.wrap, if_pos ha]
      rfl
    simp only [Event.note, hnil, Except.toOption, Option.some.injEq, reduceCtorEq, if_false]
    exact hrec
  have hname := hname.resolve_left ha
  obtain ⟨r, t, u, m', hrun, ⟨u', hu', hpay, -⟩, ht, hu, hsame, hother⟩ := hm.wrap_spec ha hname
  cases hu.symm.trans hu'
  simp only [Event.note, hrun, Except.toOption, Option.some.injEq, Value.userdata.injEq] at hnames ⊢
  by_cases hr : r = h
  · subst hr
    rw [if_pos rfl]
    cases hrec with
    | unknown _ => exact .known ⟨hu, a, hpay⟩ hpay fun T hT => Option.some.inj hT ▸ ⟨hname, ha, t, ht, rfl⟩
    | @known b u₀ hu₀ hpay₀ _ =>
      obtain rfl := hsame u₀ hu₀.1
      -- the handle is listed, so what its account says it stands for is the address
      have hstands : b.stands = a := Payload.handle.inj (hpay₀.symm.trans hpay)
      have hnull : b.address ≠ Address.null := by
        unfold Account.stands at hstands
        split at hstands
        · exact absurd hstands.symm ha
        · exact hstands ▸ ha
      exact .known ⟨hu, a, hpay⟩ hpay₀ fun T hT => Option.some.inj hT ▸ ⟨hname, hnull, t, ht, rfl⟩
  · rw [if_neg hr]
    exact hrec.congr (fun v => and_congr_left fun _ => hother h v (Ne.symm hr)) hnames

/-- The account of a handle after an address was unregistered. -/
theorem Managed.recorded_unregister (hm : m.Managed strict)
    (hnames : ∀ T t, m.Registered T t → (Action.unregister a m).2.Registered T t) (hrec : m.Recorded h account) :
    (Action.unregister a m).2.Recorded h (Event.note m h (.ask (.unregister a)) account) := by
  rcases Action.unregister_cases hm a with ⟨hrun, hnone⟩ | ⟨p, r, T, u, m', hrun, hp, hfind, hforgets⟩
  · have hunlisted : (m.handleOf a).toOption ≠ some (some h) := fun hlisted =>
      hnone h (hm.handleOf_eq_some_iff.1 (eq_ok_of_toOption hlisted))
    simp only [Event.note, hrun, hunlisted, if_false]
    exact hrec
  have hlists : m.Lists a r := ⟨p, T, hp, hforgets.before, hfind⟩
  have hlisted : (m.handleOf a).toOption = some (some r) := by rw [hm.handleOf_eq_some_iff.2 hlists]; rfl
  simp only [Event.note, hrun, hlisted, Option.some.injEq] at hnames ⊢
  by_cases hr : r = h
  · subst hr
    rw [if_pos rfl]
    cases hrec with
    | unknown hnone => exact absurd ⟨hforgets.handle, a, hforgets.payload⟩ (hnone u)
    | @known b u₀ hu₀ hpay₀ hnamed =>
      cases hforgets.handle.symm.trans hu₀.1
      obtain rfl : b.stands = a := Payload.handle.inj (hpay₀.symm.trans hforgets.payload)
      refine .known ⟨hforgets.forgotten, _, rfl⟩ (by rw [b.stands_unregister]) fun T hT => ?_
      rw [Account.named_unregister] at hT
      obtain ⟨hreserved, hnull, t, ht, hmt⟩ := hnamed T hT
      exact ⟨hreserved, by rwa [Account.address_unregister], t, hnames T t ht, hmt⟩
  · rw [if_neg hr]
    refine hrec.congr (fun v => and_congr_left fun _ => ?_) hnames
    by_cases hhp : h = p
    · subst hhp
      rw [hforgets.unlisted, hforgets.before]
      exact ⟨nofun, nofun⟩
    · rw [hforgets.other hhp (Ne.symm hr)]

/-- The account of a handle after a sweep. -/
theorem Managed.recorded_swept (hm : m.Managed strict) (hrec : m.Recorded h account) :
    (m.after .sweep).Recorded h (Event.note m h .sweep account) := by
  show m.swept.Recorded h (if m.swept.heap.contains h then account else none)
  have hold : ∀ v, m.swept.HasHandle h v → ∃ u, m.HasHandle h u := by
    rintro v ⟨hv, a, hpay⟩
    obtain ⟨-, u, hu, rfl⟩ := exists_of_swept_userdata hv
    exact ⟨u, hu, a, hpay⟩
  cases hc : m.swept.heap.contains h with
  | false => exact .unknown fun v hv => Bool.eq_false_iff.1 hc (Heap.contains_of_object? hv.1)
  | true =>
    cases hrec with
    | unknown hnone =>
      refine .unknown fun v hv => ?_
      obtain ⟨u, hu⟩ := hold v hv
      exact hnone u hu
    | known hu hpay hnamed =>
      refine .known ⟨swept_userdata (contains_swept_iff.1 hc) hu.1, hu.2⟩ hpay fun T hT => ?_
      obtain ⟨hreserved, hnull, t, ht, hmt⟩ := hnamed T hT
      exact ⟨hreserved, hnull, t, (hm.orderly.unshared.swept_registered_iff T t).2 ht, hmt⟩

/-- Every event leaves the handle as its account says then. -/
theorem Managed.recorded_after (hm : m.Managed True) (he : m.Allows (Minds (.wide True)) e) (hrec : m.Recorded h account) :
    (m.after e).Recorded h (e.note m h account) := by
  have hnames : ∀ T t, m.Registered T t → (m.after e).Registered T t := fun T t ht => hm.registered_after he ht
  have hother : (∀ a, ¬e.AsksFor a) → (∀ a, ¬e.Unregisters a) → e ≠ .sweep → (m.after e).Recorded h account :=
    fun hask hunregister hsweep => hrec.congr (fun u => hm.hasHandle_after_iff he hask hunregister hsweep) hnames
  cases e with
  | sweep => exact hm.recorded_swept hrec
  | ask request =>
    cases request with
    | ensureHandle a => exact hm.recorded_ensureHandle hnames hrec
    | wrap a name =>
      obtain ⟨-, hnull | ⟨-, hname⟩⟩ := he
      · exact hm.recorded_wrap (Or.inl hnull) hnames hrec
      · exact hm.recorded_wrap (Or.inr (hname.resolve_right fun h => h.1 trivial)) hnames hrec
    | unregister a => exact hm.recorded_unregister hnames hrec
    | _ => exact hother (fun _ h => h) (fun _ h => h) nofun
  | _ => exact hother (fun _ h => h) (fun _ h => h) nofun

end Machine

/-- After a course every handle is as its account says. -/
theorem Course.recorded {m : Machine χ σ} {es : List (Event χ σ)} {h : Ref} {account : Option Account}
    (hes : Course (Machine.Minds (.wide True)) m es) (hm : m.Managed True) (hrec : m.Recorded h account) :
    (m.follow es).Recorded h (m.accountOf h es account) := by
  induction es generalizing m account with
  | nil => exact hrec
  | cons e es ih => exact ih hes.2 (hm.after (S := .wide True) (fun _ h => h) hes.1) (hm.recorded_after hes.1 hrec)

namespace Machine

variable {m : Machine χ σ} {h : Ref} {b : Account} {account : Option Account} {T D : String}

/-- A userdata is a handle exactly if it has an account. -/
theorem Recorded.isSome_identity? (hrec : m.Recorded h account) : (m.identity? (.userdata h)).isSome = account.isSome := by
  cases hrec with
  | unknown hnone =>
    refine Bool.eq_false_iff.2 fun hsome => ?_
    obtain ⟨r, a, f, e, u, hu, hpay, -⟩ := isHandle_of_identity? hsome
    cases e
    exact hnone u ⟨hu, a, hpay⟩
  | @known b u hu hpay _ => exact Option.isSome_of_eq_some (identity?_eq_some_iff.2 ⟨h, u.finalized, rfl, u, hu.1, hpay, rfl⟩)

/-- A handle unwraps as an object of the class it was last wrapped as, if that is installed, and of no other. -/
theorem Recorded.unwrap_iff (hm : m.Orderly strict) (hmarks : m.Marked) (hrec : m.Recorded h (some b)) (hT : b.named = some T)
    (D : String) :
    ((∃ x, m.unwrap (.userdata h) D = .ok x) ↔ D = T ∧ m.isInstalled T = true) ∧
      (∀ x, m.unwrap (.userdata h) D = .ok x → x = if b.gone then none else some b.address) ∧
      (m.isOfClass (.userdata h) D = true ↔ ∃ x, m.unwrap (.userdata h) D = .ok x) := by
  cases hrec with
  | @known _ u hu hpay hnamed =>
    obtain ⟨hreserved, hnull, t, ht, hmt⟩ := hnamed T hT
    have hidentity : m.identity? (.userdata h) = some b.stands :=
      identity?_eq_some_iff.2 ⟨h, u.finalized, rfl, u, hu.1, hpay, rfl⟩
    rw [← hm.isMarked_iff hmarks hu.1 hmt hreserved ht]
    unfold unwrap isOfClass addressAs?
    rw [hidentity]
    cases m.isMarked (.userdata h) D <;> simp [b.nonNull?_stands hnull]

end Machine

/-- In a run in which native code minds the binding layer, take any events that lead to a machine from a new one. The userdata that
are handles are those of which the events give an account. A handle that was wrapped is unwrapped under a name, without a fault,
exactly if that is the name it was last wrapped under and the class is installed: to the address it was made for, unless that was
unregistered while the handle was listed for it, and then to none. It is of a class exactly if it is unwrapped under its name. -/
theorem unwrap_exact {Γ : Host χ σ} (hΓ : Γ.Lawful (Machine.Minds (.wide True)) (Machine.Managed True)) {m : Machine χ σ}
    (hm : Reached Γ (Machine.Minds (.wide True)) m) :
    (∃ limits host es, Course (Machine.Minds (.wide True)) (.start limits host) es ∧
      (Machine.start limits host).follow es = m) ∧
    ∀ limits host es, Course (Machine.Minds (.wide True)) (.start limits host) es →
      (Machine.start limits host).follow es = m → ∀ h,
        (m.identity? (.userdata h)).isSome = (Machine.accountOf h (.start limits host) es none).isSome ∧
        ∀ b T, Machine.accountOf h (.start limits host) es none = some b → b.named = some T → ∀ D,
          ((∃ x, m.unwrap (.userdata h) D = .ok x) ↔ D = T ∧ m.isInstalled T = true) ∧
          (∀ x, m.unwrap (.userdata h) D = .ok x → x = if b.gone then none else some b.address) ∧
          (m.isOfClass (.userdata h) D = true ↔ ∃ x, m.unwrap (.userdata h) D = .ok x) := by
  have hmanaged : ∀ m, Reached Γ (Machine.Minds (.wide True)) m → m.Managed True :=
    fun m hm => hm.managed (S := .wide True) (fun _ h => h) hΓ
  refine ⟨hm.exists_course (fun _ _ _ => trivial) hΓ hmanaged, ?_⟩
  rintro limits host es hes rfl h
  have hstart : (Machine.start limits host : Machine χ σ).Managed True := Machine.managed_start limits host
  have hmarks := hes.marked (fun _ h => h) hstart (Machine.marked_start limits host)
  have hnone : (Machine.start limits host : Machine χ σ).Recorded h none :=
    .unknown fun u hu => nomatch Machine.eq_empty_of_start hu.1
  have hrec := hes.recorded hstart hnone
  refine ⟨hrec.isSome_identity?, fun b T hb hT D => ?_⟩
  rw [hb] at hrec
  exact hrec.unwrap_iff (hmanaged _ hm).orderly hmarks hT D

/-- A class and its base. -/
def derivedClasses : List (ClassDescriptor Unit) := [⟨"A", .empty, []⟩, ⟨"D", .empty, ["A"]⟩]

/-- An address is wrapped as an object of a class that is not installed yet, the handle is kept on the stack, and the class and its
base are installed. -/
def wrapThenInstall : List (Event Unit Unit) :=
  [.ask (.wrap 0x10 "D"), .ask (.push (.userdata ⟨4, 0⟩)), .ask (.installClasses derivedClasses)]

/-- A new machine after that and a collection. -/
def afterInstall : Machine Unit Unit := (Machine.start .standard ()).follow (wrapThenInstall ++ [.sweep])

theorem course_wrapThenInstall :
    Course (Machine.Minds (.wide True)) (.start .standard ()) (wrapThenInstall ++ [.sweep]) := by
  have hcollecting : ((Machine.start .standard ()).follow wrapThenInstall).collecting = false := by decide +kernel
  refine course_append.2 ⟨?_, hcollecting, trivial⟩
  exact ⟨⟨trivial, Or.inr ⟨trivial, Or.inl (by decide)⟩⟩, ⟨trivial, trivial⟩, ⟨trivial, trivial⟩, trivial⟩

/-- The handle unwraps as an object of the class it was wrapped as, and not as one of the base. -/
theorem unwrap_afterInstall :
    Machine.accountOf ⟨4, 0⟩ (.start .standard ()) (wrapThenInstall ++ [.sweep]) none = some ⟨0x10, some "D", false⟩ ∧
      afterInstall.isInstalled "D" = true ∧ afterInstall.isInstalled "A" = true ∧
      afterInstall.unwrap (.userdata ⟨4, 0⟩) "D" = .ok (some 0x10) ∧ afterInstall.isOfClass (.userdata ⟨4, 0⟩) "D" = true ∧
      ¬∃ x, afterInstall.unwrap (.userdata ⟨4, 0⟩) "A" = .ok x := by
  have hreached : Reached keepingHost (Machine.Minds (.wide True)) afterInstall :=
    (Reached.start .standard ()).follow course_wrapThenInstall (by simp [wrapThenInstall])
  obtain ⟨-, hexact⟩ := unwrap_exact (mindful_keepingHost True (.wide True) fun _ h => h) hreached
  have haccount : Machine.accountOf ⟨4, 0⟩ (.start .standard ()) (wrapThenInstall ++ [.sweep]) none =
      some ⟨0x10, some "D", false⟩ := by decide +kernel
  have hinstalled : afterInstall.isInstalled "D" = true := by decide +kernel
  obtain ⟨-, hunwrap⟩ := hexact .standard () _ course_wrapThenInstall rfl ⟨4, 0⟩
  obtain ⟨x, hx⟩ := (hunwrap _ "D" haccount rfl "D").1.2 ⟨rfl, hinstalled⟩
  obtain rfl := (hunwrap _ "D" haccount rfl "D").2.1 x hx
  refine ⟨haccount, hinstalled, by decide +kernel, hx, (hunwrap _ "D" haccount rfl "D").2.2.2 ⟨_, hx⟩, fun h => ?_⟩
  exact absurd ((hunwrap _ "D" haccount rfl "A").1.1 h).1 (by decide)

end ScriptHost
