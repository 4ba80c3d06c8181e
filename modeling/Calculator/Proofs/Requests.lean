import Calculator.Proofs.FormData
import Calculator.Proofs.Replies
import Calculator.Web.Request

/-!
What a request is answered with. The query of a form is read as the pairs that it was written from,
so that the reply is to the first formula among them; and whatever is asked, the answer is a reply
or says that there is nothing of that name. Writing a reply does not fail, since it holds no number
that JSON cannot.
-/

namespace Calculator.Web

open Text

namespace Target

theorem ofUri_write (pairs : List (String × String)) :
    ofUri ("/calculator?" ++ String.ofList (Form.write pairs)).toList =
      ⟨"/calculator".toList, some (Form.write pairs)⟩ := by
  have htext : ("/calculator?" ++ String.ofList (Form.write pairs)).toList =
      "/calculator?".toList ++ Form.write pairs :=
    String.toList_append.trans (congrArg _ String.toList_ofList)
  have hpath : ∀ c ∈ "/calculator?".toList, (c != '#') = true := by simp
  have hquery : ∀ c ∈ Form.write pairs, (c != '#') = true := by
    intro c hc
    exact bne_iff_ne.mpr fun hfragment => Form.not_mem_write pairs (hfragment ▸ hc)
  rw [htext]
  change ofPath ("/calculator?".toList ++ Form.write pairs) = _
  rw [ofPath, List.takeWhile_append_of_pos hpath, List.takeWhile_eq_self_iff.mpr hquery]
  rfl

end Target

namespace Reply

theorem isFinite_json (e : Option String) : (ofExpression e).json.isFinite = true := by
  obtain ⟨_, _, answers⟩ := exists_answers e
  rw [(status_and_json_of_answers answers).2]
  exact isFinite_json_of_answers answers

theorem status_eq (e : Option String) :
    (ofExpression e).status = 200 ∨ (ofExpression e).status = 400 := by
  cases ofExpression e with
  | evaluated expression result => exact .inl rfl
  | refused error => exact .inr rfl

end Reply

namespace Request

/-- Where values without numbers beyond JSON can be written, the reply is. -/
theorem answerWith_of_found {write? : Json → Option String}
    (hwrite : ∀ j, j.isFinite = true → write? j = some j.text) {r : Request}
    (hmethod : r.method = "GET") (hpath : (Target.ofUri r.uri.toList).path = "/calculator".toList) :
    answerWith write? r =
      let reply := Reply.ofExpression (expression? (Target.ofUri r.uri.toList))
      ⟨reply.status, some "application/json", reply.body⟩ := by
  rw [answerWith, if_pos ⟨hmethod, hpath⟩]
  simp only [hwrite _ (Reply.isFinite_json _), Reply.body]

/-- A form is answered with the reply to the first of its values that is named `expression`, as
JSON. Any other request for the calculator gets a reply, too, and every request for something else
is told that there is no such thing. -/
theorem answerWith_form {write? : Json → Option String}
    (hwrite : ∀ j, j.isFinite = true → write? j = some j.text) :
    (∀ pairs : List (String × String),
        answerWith write? ⟨"GET", "/calculator?" ++ String.ofList (Form.write pairs)⟩ =
          let reply := Reply.ofExpression (pairs.lookup "expression")
          ⟨reply.status, some "application/json", reply.body⟩) ∧
      ∀ r : Request,
        (r.method ≠ "GET" ∨ (Target.ofUri r.uri.toList).path ≠ "/calculator".toList →
            answerWith write? r = ⟨404, none, ""⟩) ∧
          (r.method = "GET" → (Target.ofUri r.uri.toList).path = "/calculator".toList →
            (answerWith write? r).status = 200 ∨ (answerWith write? r).status = 400) := by
  refine ⟨?_, ?_⟩
  · intro pairs
    have htarget := Target.ofUri_write pairs
    have hexpression : expression? ⟨"/calculator".toList, some (Form.write pairs)⟩ =
        pairs.lookup "expression" := by
      change (Form.read (Form.write pairs)).lookup "expression" = _
      rw [Form.read_write]
    rw [answerWith_of_found hwrite rfl (by rw [htarget]), htarget, hexpression]
  · intro r
    refine ⟨?_, ?_⟩
    · intro hother
      rw [answerWith, if_neg (by rwa [not_and_or])]
    · intro hmethod hpath
      rw [answerWith_of_found hwrite hmethod hpath]
      exact Reply.status_eq _

/-- Separators and a letter beyond ASCII in a pair that is not asked for, and two formulas. -/
theorem answerWith_form_two_formulas :
    answer ⟨"GET", "/calculator?a%26b=%C3%BC%3D%2B&expression=2+%2B+3&expression=7"⟩ =
        ⟨200, some "application/json", "\x7b\"expression\":\"2 + 3\",\"result\":5.0\x7d"⟩ ∧
      answer ⟨"GET", "/Calculator?expression=7"⟩ = ⟨404, none, ""⟩ := by
  have huri : "/calculator?a%26b=%C3%BC%3D%2B&expression=2+%2B+3&expression=7" = "/calculator?" ++
      String.ofList (Form.write [("a&b", "ü=+"), ("expression", "2 + 3"),
        ("expression", "7")]) := by
    decide +kernel
  have hlookup : List.lookup "expression" [("a&b", "ü=+"), ("expression", "2 + 3"),
      ("expression", "7")] = some "2 + 3" := by decide +kernel
  have hreply : Reply.ofExpression (some "2 + 3") = .evaluated "2 + 3" 5 := by decide +kernel
  have hbody : (Reply.evaluated "2 + 3" 5).body =
      "\x7b\"expression\":\"2 + 3\",\"result\":5.0\x7d" := by decide +kernel
  obtain ⟨hform, hother⟩ := @answerWith_form (some ·.text) fun _ _ => rfl
  refine ⟨?_, (hother _).1 (.inr (by decide +kernel))⟩
  rw [huri]
  exact (hform _).trans (by simp only [hlookup, hreply, hbody]; rfl)

end Request

end Calculator.Web
