import Calculator.Proofs.JsonText
import Calculator.Web.Reply

/-!
What whoever asks over the web gets to read. The reply is a text; read as JSON, it is the formula
with its value if the formula may be looked at and has a finite value, and else the one thing that
is wrong. The formula is repeated character for character, and the value bit for bit.
-/

namespace Calculator.Web

/-- The JSON value that says what is wrong. -/
def complaint (error : String) : Json := .object [("error", .string error)]

/-- The status and the JSON value to be read in the reply to a formula, if there is one. -/
inductive Answers : Option String → Nat → Json → Prop
  | value {e : String} {x : Float} (allowed : Reply.isAllowed e = true)
      (value : Formula.value e = .ok x) (finite : Number.isFinite x = true) :
      Answers (some e) 200 (.object [("expression", .string e), ("result", .number x)])
  | missing : Answers none 400 (complaint "Invalid or missing expression")
  | notAllowed {e : String} (notAllowed : Reply.isAllowed e = false) :
      Answers (some e) 400 (complaint "Invalid or missing expression")
  | fault {e : String} {fault : Fault} (allowed : Reply.isAllowed e = true)
      (value : Formula.value e = .error fault) :
      Answers (some e) 400 (complaint ("Error evaluating expression: " ++ fault.message))
  | notANumber {e : String} {x : Float} (allowed : Reply.isAllowed e = true)
      (value : Formula.value e = .ok x) (nan : Number.isNaN x = true) :
      Answers (some e) 400 (complaint "Error evaluating expression: NaN not allowed in JSON")
  | infinity {e : String} {x : Float} (allowed : Reply.isAllowed e = true)
      (value : Formula.value e = .ok x) (infinite : Number.magnitude x = Number.infinity)
      (positive : Number.isNegative x = false) :
      Answers (some e) 400 (complaint "Error evaluating expression: Infinity not allowed in JSON")
  | negativeInfinity {e : String} {x : Float} (allowed : Reply.isAllowed e = true)
      (value : Formula.value e = .ok x) (infinite : Number.magnitude x = Number.infinity)
      (negative : Number.isNegative x = true) :
      Answers (some e) 400 (complaint "Error evaluating expression: -Infinity not allowed in JSON")

namespace Reply

/-- A reply never holds a number that JSON cannot. -/
theorem isFinite_json_of_answers {e : Option String} {status : Nat} {j : Json}
    (h : Answers e status j) : j.isFinite = true := by
  cases h with
  | value _ _ finite => simp [Json.isFinite, Json.fieldsAreFinite, finite]
  | missing | notAllowed _ | fault _ _ | notANumber _ _ _ | infinity _ _ _ _
  | negativeInfinity _ _ _ _ => rfl

theorem result_ne_null_of_answers {e : Option String} {status : Nat}
    {fields : List (String × Json)} (h : Answers e status (.object fields)) :
    ("result", .null) ∉ fields := by
  cases h <;> simp

theorem unrepresentable?_of_isNaN {x : Float} (h : Number.isNaN x = true) :
    unrepresentable? x = some "NaN not allowed in JSON" := by
  have above : Number.infinity < Number.magnitude x := by simpa [Number.isNaN] using h
  have notFinite : Number.isFinite x = false := by
    simp only [Number.isFinite, decide_eq_false_iff_not]
    omega
  simp [unrepresentable?, notFinite, h]

theorem unrepresentable?_of_infinite {x : Float} (h : Number.magnitude x = Number.infinity) :
    unrepresentable? x = some (if Number.isNegative x then "-Infinity not allowed in JSON"
      else "Infinity not allowed in JSON") := by
  have notFinite : Number.isFinite x = false := by simp [Number.isFinite, h]
  have number : Number.isNaN x = false := by simp [Number.isNaN, h]
  rw [unrepresentable?, notFinite, number]
  cases Number.isNegative x <;> rfl

/-- The reply is determined by its answer. -/
theorem status_and_json_of_answers {e : Option String} {status : Nat} {j : Json}
    (h : Answers e status j) :
    (ofExpression e).status = status ∧ (ofExpression e).json = j := by
  cases h with
  | value allowed value finite =>
    have representable : ∀ {x : Float}, Number.isFinite x = true → unrepresentable? x = none :=
      fun h => by simp [unrepresentable?, h]
    simp [ofExpression, allowed, value, representable finite, Reply.status, json]
  | missing => exact ⟨rfl, rfl⟩
  | notAllowed notAllowed => simp [ofExpression, notAllowed, Reply.status, json, complaint]
  | fault allowed value => simp [ofExpression, allowed, value, Reply.status, json, complaint]
  | notANumber allowed value nan =>
    simp [ofExpression, allowed, value, unrepresentable?_of_isNaN nan, Reply.status, json,
      complaint]
  | infinity allowed value infinite positive =>
    simp [ofExpression, allowed, value, unrepresentable?_of_infinite infinite, positive,
      Reply.status, json, complaint]
  | negativeInfinity allowed value infinite negative =>
    simp [ofExpression, allowed, value, unrepresentable?_of_infinite infinite, negative,
      Reply.status, json, complaint]

/-- To every formula there is an answer. -/
theorem exists_answers (e : Option String) : ∃ status j, Answers e status j := by
  cases e with
  | none => exact ⟨_, _, .missing⟩
  | some e =>
    cases allowed : isAllowed e with
    | false => exact ⟨_, _, .notAllowed allowed⟩
    | true =>
      cases value : Formula.value e with
      | error fault => exact ⟨_, _, .fault allowed value⟩
      | ok x =>
        rcases Nat.lt_trichotomy (Number.magnitude x) Number.infinity with below | same | above
        · exact ⟨_, _, .value allowed value (by simpa [Number.isFinite] using below)⟩
        · cases sign : Number.isNegative x with
          | false => exact ⟨_, _, .infinity allowed value same sign⟩
          | true => exact ⟨_, _, .negativeInfinity allowed value same sign⟩
        · exact ⟨_, _, .notANumber allowed value (by simpa [Number.isNaN] using above)⟩

/-- Every reply can be read as JSON, what is read there is the answer to the formula, and a null
is never the result. -/
theorem read?_body_iff_answers (e : Option String) :
    (∃ j, Json.read? (ofExpression e).body.toList = some j) ∧
      (∀ status j, (ofExpression e).status = status ∧
          Json.read? (ofExpression e).body.toList = some j ↔ Answers e status j) ∧
      ∀ fields, Json.read? (ofExpression e).body.toList = some (.object fields) →
        ("result", .null) ∉ fields := by
  obtain ⟨status, j, answers⟩ := exists_answers e
  obtain ⟨hstatus, hjson⟩ := status_and_json_of_answers answers
  have read : Json.read? (ofExpression e).body.toList = some j := by
    rw [body, Json.text, String.toList_ofList, hjson]
    exact Json.read?_chars (isFinite_json_of_answers answers)
  refine ⟨⟨j, read⟩, fun status' k => ⟨?_, ?_⟩, fun fields hfields => ?_⟩
  · rintro ⟨rfl, hread⟩
    obtain rfl : j = k := Option.some.inj (read.symm.trans hread)
    rw [hstatus]
    exact answers
  · intro answers'
    obtain ⟨hstatus', hjson'⟩ := status_and_json_of_answers answers'
    rw [hjson] at hjson'
    exact ⟨hstatus', hjson' ▸ read⟩
  · obtain rfl : j = .object fields := Option.some.inj (read.symm.trans hfields)
    exact result_ne_null_of_answers answers

/-- The quotes in a message are read back, too. -/
example : (ofExpression (some "sqrt(0 - 1)")).body =
    "\x7b\"error\":\"Error evaluating expression: " ++
      "Numerical argument is out of domain - \\\"sqrt\\\"\"\x7d" := by
  decide +kernel

end Reply

end Calculator.Web
