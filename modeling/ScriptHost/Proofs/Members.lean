import ScriptHost.Binding.Enumeration
import ScriptHost.Proofs.Table

/-!
# The members of an enumeration

Where the members of an enumeration have a name or an integer more than once, the last pair with it counts, for the name and for the
integer on its own (`EnumDescriptor.valueOf?`, `EnumDescriptor.nameOf?`). That is what the table of the enumeration has under texts
(`EnumDescriptor.get_table_string`) and under integers (`EnumDescriptor.get_table_integer`).
-/

namespace ScriptHost

/-! ## The last pair that counts -/

namespace EnumDescriptor

variable {d : EnumDescriptor} {s : String} {i : Int64}

/-- The integer of a member: that of the last pair with the name. -/
def valueOf? (d : EnumDescriptor) (member : String) : Option Int64 := d.members.reverse.lookup member

/-- The member of an integer: the name in the last pair with the integer. -/
def nameOf? (d : EnumDescriptor) (i : Int64) : Option String := (d.members.map Prod.swap).reverse.lookup i

/-- The last of some definitions that has the name. -/
def latest? (ds : List EnumDescriptor) (name : String) : Option EnumDescriptor := ds.reverse.find? (·.name == name)

theorem valueOf?_eq_some_iff :
    d.valueOf? s = some i ↔ ∃ earlier later, d.members = earlier ++ (s, i) :: later ∧ ∀ e ∈ later, e.1 ≠ s :=
  lookup_reverse_eq_some_iff

theorem nameOf?_eq_some_iff :
    d.nameOf? i = some s ↔ ∃ earlier later, d.members = earlier ++ (s, i) :: later ∧ ∀ e ∈ later, e.2 ≠ i := by
  rw [nameOf?, lookup_reverse_eq_some_iff]
  constructor
  · rintro ⟨earlier, later, hsplit, hlater⟩
    refine ⟨earlier.map Prod.swap, later.map Prod.swap, ?_, fun e he => ?_⟩
    · rw [← List.map_id d.members, ← Prod.swap_swap_eq, ← List.map_map, hsplit]
      simp
    · obtain ⟨e', he', rfl⟩ := List.mem_map.1 he
      exact hlater e' he'
  · rintro ⟨earlier, later, hsplit, hlater⟩
    refine ⟨earlier.map Prod.swap, later.map Prod.swap, by simp [hsplit], fun e he => ?_⟩
    obtain ⟨e', he', rfl⟩ := List.mem_map.1 he
    exact hlater e' he'

theorem nameOf?_eq_none_iff : d.nameOf? i = none ↔ ∀ e ∈ d.members, e.2 ≠ i := by
  rw [nameOf?, List.lookup_eq_none_iff]
  constructor
  · intro h e he heq
    simpa [heq] using h e.swap (List.mem_reverse.2 (List.mem_map_of_mem he))
  · intro h e he
    obtain ⟨e', he', rfl⟩ := List.mem_map.1 (List.mem_reverse.1 he)
    simpa using Ne.symm (h e' he')

/-- A pair that is the last with its integer is the last with its name if and only if no later pair has the name. -/
theorem valueOf?_eq_iff_of_last {earlier later : List (String × Int64)} (hsplit : d.members = earlier ++ (s, i) :: later)
    (hlast : ∀ e ∈ later, e.2 ≠ i) : d.valueOf? s = some i ↔ ∀ e ∈ later, e.1 ≠ s := by
  refine ⟨fun h e he hname => ?_, fun h => valueOf?_eq_some_iff.2 ⟨earlier, later, hsplit, h⟩⟩
  have hfound : (later.reverse.lookup s).isSome = true := by
    rw [← Option.not_isNone, Bool.not_eq_true', ← Bool.not_eq_true, Option.isNone_iff_eq_none, List.lookup_eq_none_iff]
    exact fun hnone => by simpa [hname] using hnone e (List.mem_reverse.2 he)
  obtain ⟨j, hj⟩ := Option.isSome_iff_exists.1 hfound
  -- the integer found is that of a later pair
  obtain ⟨front, back, hback, -⟩ := lookup_reverse_eq_some_iff.1 hj
  rw [valueOf?, hsplit, List.reverse_append, List.reverse_cons, List.append_assoc, List.lookup_append, hj] at h
  exact hlast (s, j) (hback ▸ by simp) (Option.some.inj h)

/-- Later definitions count before earlier ones. -/
theorem latest?_append (ds later : List EnumDescriptor) (name : String) :
    latest? (ds ++ later) name = (latest? later name).or (latest? ds name) := by
  rw [latest?, List.reverse_append, List.find?_append]
  rfl

theorem latest?_eq_none_iff {ds : List EnumDescriptor} {name : String} : latest? ds name = none ↔ name ∉ ds.map EnumDescriptor.name := by
  simp [latest?]

/-- A definition counts for its own name, and the definitions before it for the others. -/
theorem latest?_concat (ds : List EnumDescriptor) (d : EnumDescriptor) (name : String) :
    latest? (ds ++ [d]) name = if d.name = name then some d else latest? ds name := by
  rw [latest?_append]
  by_cases h : d.name = name
  · simp [latest?, h]
  · rw [latest?_eq_none_iff.2 (by simpa using Ne.symm h), Option.none_or, if_neg h]

end EnumDescriptor

/-! ## The table of an enumeration -/

namespace Table

variable {T : Table} {members : List (String × Int64)}

/-- The table with members put into it, both ways. -/
def withMembers (T : Table) : List (String × Int64) → Table
  | [] => T
  | (name, i) :: rest => ((T.set (.string name) (.integer i)).set (.integer i) (.string name)).withMembers rest

theorem metatable_withMembers (T : Table) (members : List (String × Int64)) : (T.withMembers members).metatable = T.metatable := by
  induction members generalizing T with
  | nil => rfl
  | cons e rest ih => rw [withMembers, ih, metatable_set, metatable_set]

/-- Under a text there is the integer of the last pair with it. -/
theorem find?_withMembers_string (T : Table) (members : List (String × Int64)) (s : String) :
    (T.withMembers members).find? (.string s) = ((members.reverse.lookup s).map Value.integer).or (T.find? (.string s)) := by
  induction members generalizing T with
  | nil => rfl
  | cons e rest ih =>
    obtain ⟨name, i⟩ := e
    rw [withMembers, ih, find?_set, if_neg nofun, find?_set, lookup_reverse_cons, Option.map_or, Option.or_assoc]
    congr 1
    by_cases h : s = name <;> simp [h, Value.isNil]

/-- Under an integer there is the name in the last pair with it. -/
theorem find?_withMembers_integer (T : Table) (members : List (String × Int64)) (i : Int64) :
    (T.withMembers members).find? (.integer i) =
      (((members.map Prod.swap).reverse.lookup i).map Value.string).or (T.find? (.integer i)) := by
  induction members generalizing T with
  | nil => rfl
  | cons e rest ih =>
    obtain ⟨name, j⟩ := e
    rw [withMembers, ih, find?_set, List.map_cons, lookup_reverse_cons, Option.map_or, Option.or_assoc]
    congr 1
    by_cases h : i = j <;> simp [h, find?_set, Value.isNil]

end Table

namespace EnumDescriptor

variable {d : EnumDescriptor}

/-- The table of an enumeration. -/
def table (d : EnumDescriptor) : Table := Table.empty.withMembers d.members

theorem metatable_table (d : EnumDescriptor) : d.table.metatable = none := Table.metatable_withMembers _ _

theorem get_table_string (d : EnumDescriptor) (s : String) :
    d.table.get (.string s) = ((d.valueOf? s).map Value.integer).getD .nil := by
  rw [Table.get, table, Table.find?_withMembers_string]
  exact congrArg (Option.getD · Value.nil) Option.or_none

theorem get_table_integer (d : EnumDescriptor) (i : Int64) :
    d.table.get (.integer i) = ((d.nameOf? i).map Value.string).getD .nil := by
  rw [Table.get, table, Table.find?_withMembers_integer]
  exact congrArg (Option.getD · Value.nil) Option.or_none

end EnumDescriptor

end ScriptHost
