import Calculator.CommandLine.Run
import Calculator.Proofs.Lines
import Calculator.Proofs.Utf8
import Mathlib.Data.List.Nodup

/-!
Expressions that are taken from the input. What is printed, what is reported and how the run ends is
what comes of giving each line that is not blank as the expression, one after the other: a line that
fails keeps no other from being treated. An input that is no text is refused as a whole.
-/

namespace Calculator.CommandLine

open Text

namespace Flag

/-- Whether the flag asks for a view of the expression. -/
def isView : Flag → Bool
  | json | queue | tree | plain => true
  | input | verbose | quiet => false

/-- The flag as it is given. -/
def argument (f : Flag) : String := "--" ++ f.long

end Flag

/-- Arguments that give a text as the expression: behind two dashes, or alone unless something
follows a dash at its start. -/
inductive Positional (text : String) : List String → Prop
  | behindDashes : Positional text ["--", text]
  | alone (h : ∀ c cs, text.toList ≠ '-' :: c :: cs) : Positional text [text]

namespace Arguments

theorem readFrom_argument (a : Arguments) (awaits : Bool) (f : Flag) (args : List String) :
    a.readFrom awaits (f.argument :: args) = (a.addFlag f).readFrom false args := by
  cases f <;> rfl

theorem readFrom_map_argument (a : Arguments) (flags : List Flag) (args : List String) :
    a.readFrom false (flags.map Flag.argument ++ args) =
      { a with flags := a.flags ++ flags }.readFrom false args := by
  induction flags generalizing a with
  | nil => simp
  | cons f flags ih => rw [List.map_cons, List.cons_append, readFrom_argument, ih, addFlag]; simp

theorem readFrom_positional {a : Arguments} (ha : a.expression = none) {text : String}
    {args : List String} (h : Positional text args) :
    a.readFrom false args = .ok { a with expression := some text } := by
  cases h with
  | behindDashes =>
      change a.readPlain [text] = _
      simp only [readPlain, addExpression, ha]
  | alone h =>
      rw [readFrom]
      split
      · rename_i htext
        exact absurd htext (h _ _)
      · rename_i htext
        exact absurd htext (h _ _)
      · rename_i htext
        exact absurd htext (h _ _)
      · simp only [Bool.false_eq_true, if_false, addExpression, ha, readFrom]

theorem isConsistent_of_nodup {flags : List Flag} (hnodup : flags.Nodup)
    (hverbose : .verbose ∉ flags) {expression : Option String}
    (hinput : .input ∈ flags → expression = none) :
    isConsistent ⟨flags, expression, false⟩ = true := by
  have hcount : Flag.all.all (fun f => f.isRepeatable || flags.count f ≤ 1) = true := by
    simp [List.all_eq_true, List.nodup_iff_count_le_one.mp hnodup]
  by_cases h : .input ∈ flags
  · simp [isConsistent, hcount, hverbose, hinput h]
  · simp [isConsistent, hcount, hverbose, h]

theorem read_positional {flags : List Flag} (hviews : ∀ f ∈ flags, f.isView = true)
    (hnodup : flags.Nodup) {text : String} {args : List String} (h : Positional text args) :
    read (flags.map Flag.argument ++ args) = .ok ⟨flags, some text, false⟩ := by
  have hverbose : .verbose ∉ flags := fun hmem => absurd (hviews _ hmem) (by decide)
  have hinput : .input ∉ flags := fun hmem => absurd (hviews _ hmem) (by decide)
  rw [read, readFrom_map_argument, readFrom_positional rfl h]
  exact if_pos (isConsistent_of_nodup hnodup hverbose (absurd · hinput))

theorem read_input {flags given : List Flag} (hviews : ∀ f ∈ flags, f.isView = true)
    (hnodup : flags.Nodup) (hgiven : given.Perm (.input :: flags)) :
    read (given.map Flag.argument) = .ok ⟨given, none, false⟩ := by
  have hverbose : .verbose ∉ flags := fun hmem => absurd (hviews _ hmem) (by decide)
  have hinput : .input ∉ flags := fun hmem => absurd (hviews _ hmem) (by decide)
  have hconsistent : isConsistent ⟨given, none, false⟩ = true := by
    refine isConsistent_of_nodup ?_ ?_ fun _ => rfl
    · exact hgiven.nodup_iff.mpr (List.nodup_cons.mpr ⟨hinput, hnodup⟩)
    · simpa [hgiven.mem_iff] using hverbose
  have hread := readFrom_map_argument empty given []
  rw [List.append_nil] at hread
  rw [read, hread]
  exact if_pos hconsistent

end Arguments

namespace Views

/-- The views that flags ask for. -/
def ofFlags (flags : List Flag) : Views :=
  ⟨flags.contains .json, flags.contains .tree, flags.contains .queue, flags.contains .plain⟩

theorem ofFlags_eq_of_perm {flags given : List Flag} (h : given.Perm (.input :: flags)) :
    ofFlags given = ofFlags flags := by
  simp [ofFlags, h.mem_iff]

theorem code_print (texts : List (Except Fault String)) :
    (print texts).code = 0 ∨ (print texts).code = 1 := by
  induction texts with
  | nil => exact .inl rfl
  | cons text rest ih =>
      cases text with
      | error fault => exact .inr rfl
      | ok text => exact ih

theorem code_outcome (v : Views) (expression : String) :
    (v.outcome expression).code = 0 ∨ (v.outcome expression).code = 1 := by
  rw [outcome]
  split
  · dsimp only
    split
    · exact .inl rfl
    · exact .inr rfl
  · exact code_print _

end Views

theorem run_positional {flags : List Flag} (hviews : ∀ f ∈ flags, f.isView = true)
    (hnodup : flags.Nodup) {text : String} {args : List String} (h : Positional text args)
    (unread : List UInt8) :
    run (flags.map Flag.argument ++ args) unread = (Views.ofFlags flags).outcome text := by
  have hinput : .input ∉ flags := fun hmem => absurd (hviews _ hmem) (by decide)
  simp [run, Task.ofArguments, Arguments.read_positional hviews hnodup h, hinput, Task.run,
    Views.ofFlags]

theorem run_input {flags given : List Flag} (hviews : ∀ f ∈ flags, f.isView = true)
    (hnodup : flags.Nodup) (hgiven : given.Perm (.input :: flags)) (input : List UInt8) :
    run (given.map Flag.argument) input = runInput (Views.ofFlags flags) input := by
  have hinput : .input ∈ given := hgiven.mem_iff.mpr List.mem_cons_self
  rw [← Views.ofFlags_eq_of_perm hgiven]
  simp [run, Task.ofArguments, Arguments.read_input hviews hnodup hgiven, hinput, Task.run,
    Views.ofFlags]

theorem expressions_eq (cs : List Char) :
    expressions cs = ((splitLines cs).filter (!isBlankText ·)).map String.ofList := by
  rw [expressions, filter_lines rfl]

/-- With any flags for views, the input is treated line by line as runs would be that are given one
line each, blank lines aside. An input that is no text is refused, whatever is in it. -/
theorem run_input_eq_runs {flags given : List Flag} (hviews : ∀ f ∈ flags, f.isView = true)
    (hnodup : flags.Nodup) (hgiven : given.Perm (.input :: flags))
    {positional : String → List String} (hpositional : ∀ text, Positional text (positional text))
    (unread : List UInt8) :
    (∀ text : List Char,
        let runs := ((splitLines text).filter (!isBlankText ·)).map fun line =>
          run (flags.map Flag.argument ++ positional (String.ofList line)) unread
        run (given.map Flag.argument) (toUtf8 text) =
          ⟨if runs.any (·.code == 1) then 1 else 0, String.join (runs.map (·.stdout)),
            runs.flatMap (·.errors)⟩) ∧
      ∀ input : List UInt8, (∀ text, input ≠ toUtf8 text) →
        ∃ why, run (given.map Flag.argument) input = ⟨2, "", ["Error: " ++ why]⟩ := by
  refine ⟨?_, ?_⟩
  · intro text runs
    have hruns : runs = (expressions text).map (Views.ofFlags flags).outcome := by
      simp only [runs, run_positional hviews hnodup (hpositional _), expressions_eq, List.map_map]
      rfl
    have hcode : runs.any (·.code != 0) = runs.any (·.code == 1) := by
      rw [hruns, List.any_map, List.any_map]
      congr 1
      funext expression
      obtain hcode | hcode := (Views.ofFlags flags).code_outcome expression <;>
        simp [hcode]
    have hread : ofUtf8? (toUtf8 text) = some text := (ofUtf8?_eq_some_iff).mpr rfl
    rw [run_input hviews hnodup hgiven, runInput, hread, ← hcode, hruns]
    rfl
  · intro input hinput
    have hread : ofUtf8? input = none := by
      cases h : ofUtf8? input with
      | none => rfl
      | some text => exact absurd (ofUtf8?_eq_some_iff.mp h) (hinput text)
    exact ⟨_, by rw [run_input hviews hnodup hgiven, runInput, hread]; rfl⟩

/-- Three lines and a blank one. What is printed before the second one fails stays, and the last one
is treated all the same. -/
theorem run_input_eq_runs_three_lines :
    run ["--stdin", "--postfix"] (toUtf8 "2 * 3\r\n \n-1 +\n7".toList) =
        ⟨1, "2 3 *\n6.0\n-1 +\n7\n7.0\n", ["Error: Invalid expression: not enough operands"]⟩ ∧
      ∃ why, run ["--stdin", "--postfix"] [0x37, 0x0A, 0xFF] = ⟨2, "", ["Error: " ++ why]⟩ := by
  have hgiven : [.input, .queue].map Flag.argument = ["--stdin", "--postfix"] := by decide +kernel
  have hbroken : ofUtf8? [0x37, 0x0A, 0xFF] = none := by decide +kernel
  obtain ⟨htext, hbytes⟩ := @run_input_eq_runs [.queue] [.input, .queue] (by decide) (by decide)
    (.refl _) (["--", ·]) (fun _ => .behindDashes) []
  rw [hgiven] at htext hbytes
  refine ⟨(htext _).trans (by decide +kernel), hbytes _ fun text h => ?_⟩
  rw [ofUtf8?_eq_some_iff.mpr h] at hbroken
  cases hbroken

end Calculator.CommandLine
