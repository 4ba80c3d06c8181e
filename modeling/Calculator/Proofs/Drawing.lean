import Calculator.Expr.Outline
import Calculator.Proofs.Lexemes

/-!
The drawing of a tree. Whatever a builder has open is open again when a tree has been put below it,
so the drawing has one line for each node, in preorder. In front of its label a line has one column
for each level: the last one says whether a sibling follows the node, the others say so of the nodes
around it. And the labels alone, read in this order, say which tree is drawn, since a label shows
how many operands its node has.
-/

namespace Calculator

namespace Token

theorem isTokenChar_of_mem_chars {t : Token} (h : ∀ x, t = number x → Number.isFinite x = true)
    {c : Char} (hc : c ∈ t.chars) : isTokenChar c = true := by
  cases t with
  | number x =>
      obtain ⟨digits, _, hnumeral, hchars⟩ := plain_chars_eq (h x rfl)
      rw [chars, hchars] at hc
      split at hc
      · rcases List.mem_cons.mp hc with rfl | hc
        · exact isTokenChar_symbol .subtract
        · exact isTokenChar_of_isNumeral (hnumeral c hc)
      · exact isTokenChar_of_isNumeral (hnumeral c hc)
  | binary op =>
      rw [List.mem_singleton.mp hc]
      exact isTokenChar_symbol op
  | func f => exact isTokenChar_of_isLetter (isLetter_of_mem_name hc)
  | leftParen | rightParen =>
      rw [List.mem_singleton.mp hc]
      decide

/-- The texts of numbers alone have numerals in them. -/
theorem any_isNumeral_chars {t : Token} (h : ∀ x, t = number x → Number.isFinite x = true) :
    t.chars.any isNumeral = t.isNumber := by
  cases t with
  | number x =>
      obtain ⟨digits, hne, hnumeral, hchars⟩ := plain_chars_eq (h x rfl)
      obtain ⟨c, hc⟩ := List.exists_mem_of_ne_nil digits hne
      refine List.any_eq_true.mpr ⟨c, ?_, hnumeral c hc⟩
      rw [chars, hchars]
      split
      · exact List.mem_cons_of_mem _ hc
      · exact hc
  | binary op => cases op <;> decide
  | func f => cases f <;> decide
  | leftParen | rightParen => decide

theorem scanAfter_true_chars {t : Token} (h : t.isNumber = false) :
    scanAfter true t.chars = .ok [t] := by
  have hreadable : readable true t = true := by
    cases t with
    | number x => cases h
    | binary op => cases op <;> rfl
    | func _ | leftParen | rightParen => rfl
  have hscan := scanAfter_chars_append hreadable [] (by simp)
  rwa [List.append_nil, scanAfter_nil] at hscan

/-- No two tokens have one text, if their numbers are finite. -/
theorem chars_injective {t u : Token} (ht : ∀ x, t = number x → Number.isFinite x = true)
    (hu : ∀ x, u = number x → Number.isFinite x = true) (h : t.chars = u.chars) : t = u := by
  have hnumber : t.isNumber = u.isNumber := by
    rw [← any_isNumeral_chars ht, ← any_isNumeral_chars hu, h]
  cases htn : t.isNumber with
  | false =>
      have hscan := scanAfter_true_chars htn
      rw [h, scanAfter_true_chars (hnumber ▸ htn)] at hscan
      exact (List.singleton_inj.mp (Except.ok.inj hscan)).symm
  | true =>
      cases t with
      | number x =>
          cases u with
          | number y =>
              rw [Number.plain_chars_injective (ht x rfl) (hu y rfl) h]
          | binary _ | func _ | leftParen | rightParen => cases hnumber
      | binary _ | func _ | leftParen | rightParen => cases htn

end Token

namespace Expr

def operands : Expr → List Expr
  | number _ => []
  | binary _ left right => [left, right]
  | apply _ argument => [argument]

/-- The node at an address, which says for each level below the root which operand to go on to. -/
def at? (e : Expr) : List Nat → Option Expr
  | [] => some e
  | i :: address => e.operands[i]?.bind (·.at? address)

/-- Places in the operand `i`, as places in the whole. -/
def under (i : Nat) (places : List (List Nat × Expr)) : List (List Nat × Expr) :=
  places.map fun place => (i :: place.1, place.2)

/-- The nodes with their addresses, in preorder. -/
def places : Expr → List (List Nat × Expr)
  | number x => [([], number x)]
  | binary op left right =>
    ([], binary op left right) :: (under 0 left.places ++ under 1 right.places)
  | apply f argument => ([], apply f argument) :: under 0 argument.places

/-- There is another operand to the right of the one at an address. -/
def HasLaterSibling (e : Expr) (address : List Nat) : Prop :=
  ∃ parent i j, address = parent ++ [i] ∧ i < j ∧ (e.at? (parent ++ [j])).isSome = true

/-- The same, told level by level; `later` tells it of the root. -/
def hasLater (later : Bool) (e : Expr) : List Nat → Bool
  | [] => later
  | i :: address =>
    e.operands[i]?.any fun operand => operand.hasLater (i + 1 < e.operands.length) address

theorem isSome_at?_singleton (e : Expr) (i : Nat) :
    (e.at? [i]).isSome = true ↔ i < e.operands.length := by
  by_cases hi : i < e.operands.length <;> simp [at?, hi]

theorem not_hasLaterSibling_nil (e : Expr) : ¬e.HasLaterSibling [] := by
  rintro ⟨parent, i, j, h, _⟩
  simp at h

theorem hasLaterSibling_cons (e : Expr) (i : Nat) (address : List Nat) :
    e.HasLaterSibling (i :: address) ↔
      (address = [] ∧ i + 1 < e.operands.length) ∨
        ∃ operand, e.operands[i]? = some operand ∧ operand.HasLaterSibling address := by
  constructor
  · rintro ⟨parent, last, j, haddress, hlt, hsome⟩
    cases parent with
    | nil =>
        obtain ⟨rfl, rfl⟩ := List.cons.inj haddress
        exact .inl ⟨rfl, Nat.lt_of_le_of_lt hlt ((isSome_at?_singleton e j).mp hsome)⟩
    | cons k parent =>
        obtain ⟨rfl, rfl⟩ := List.cons.inj haddress
        rw [List.cons_append, at?] at hsome
        obtain ⟨operand, hoperand⟩ :=
          Option.isSome_iff_exists.mp (Option.isSome_of_isSome_bind hsome)
        rw [hoperand, Option.bind_some] at hsome
        exact .inr ⟨operand, hoperand, parent, last, j, rfl, hlt, hsome⟩
  · rintro (⟨rfl, hlt⟩ | ⟨operand, hoperand, parent, last, j, rfl, hlt, hsome⟩)
    · exact ⟨[], i, i + 1, rfl, Nat.lt_succ_self i, (isSome_at?_singleton e (i + 1)).mpr hlt⟩
    · refine ⟨i :: parent, last, j, rfl, hlt, ?_⟩
      rw [List.cons_append, at?, hoperand]
      exact hsome

theorem hasLater_eq_true_iff (later : Bool) (e : Expr) (address : List Nat) :
    e.hasLater later address = true ↔
      (address = [] ∧ later = true) ∨ e.HasLaterSibling address := by
  induction address generalizing e later with
  | nil => simp [hasLater, not_hasLaterSibling_nil]
  | cons i address ih =>
      rw [hasLater, Option.any_eq_true, hasLaterSibling_cons]
      simp only [ih, decide_eq_true_eq, reduceCtorEq, false_and, false_or]
      constructor
      · rintro ⟨operand, hoperand, ⟨rfl, hlt⟩ | hlater⟩
        · exact .inl ⟨rfl, hlt⟩
        · exact .inr ⟨operand, hoperand, hlater⟩
      · rintro (⟨rfl, hlt⟩ | ⟨operand, hoperand, hlater⟩)
        · have hi : i < e.operands.length := Nat.lt_of_succ_lt hlt
          exact ⟨e.operands[i], List.getElem?_eq_getElem hi, .inl ⟨rfl, hlt⟩⟩
        · exact ⟨operand, hoperand, .inr hlater⟩

instance (e : Expr) (address : List Nat) : Decidable (e.HasLaterSibling address) :=
  decidable_of_iff (e.hasLater false address = true) (by simp [hasLater_eq_true_iff])

/-- What stands in front of the label of the node at an address: a column for each node around it,
then its own. -/
def columns (e : Expr) (address : List Nat) : List Char :=
  (List.range address.length).flatMap (fun k =>
      if e.HasLaterSibling (address.take k) then ['│', ' ', ' '] else [' ', ' ', ' ']) ++
    if e.HasLaterSibling address then ['├', '─', ' '] else ['└', '─', ' ']

example :
    let e := binary .add (apply .sqrt (binary .multiply (number 2) (number 8))) (number 1)
    (e.at? [0, 0, 1] = some (number 8) ∧ e.columns [0, 0, 1] = "   │     └─ ".toList) ∧
      e.at? [1] = some (number 1) ∧ e.columns [1] = "   └─ ".toList := by
  decide +kernel

theorem mem_under {i : Nat} {places : List (List Nat × Expr)} {address : List Nat} {node : Expr} :
    (address, node) ∈ under i places ↔ ∃ rest, address = i :: rest ∧ (rest, node) ∈ places := by
  rw [under, List.mem_map]
  constructor
  · rintro ⟨place, hmem, hplace⟩
    obtain ⟨rfl, rfl⟩ := Prod.mk.inj hplace
    exact ⟨place.1, rfl, hmem⟩
  · rintro ⟨rest, rfl, hmem⟩
    exact ⟨(rest, node), hmem, rfl⟩

theorem map_snd_under (i : Nat) (places : List (List Nat × Expr)) :
    (under i places).map Prod.snd = places.map Prod.snd := by
  rw [under, List.map_map]
  rfl

theorem mem_places_iff (e : Expr) (address : List Nat) (node : Expr) :
    (address, node) ∈ e.places ↔ e.at? address = some node := by
  induction e generalizing address with
  | number x =>
      cases address with
      | nil => simpa [places, at?] using eq_comm
      | cons i rest => simp [places, at?, operands]
  | binary op left right ihl ihr =>
      match address with
      | [] => simpa [places, mem_under, at?] using eq_comm
      | 0 :: rest => simp [places, mem_under, at?, operands, ihl]
      | 1 :: rest => simp [places, mem_under, at?, operands, ihr]
      | (i + 2) :: rest => simp [places, mem_under, at?, operands]
  | apply f argument ih =>
      match address with
      | [] => simpa [places, mem_under, at?] using eq_comm
      | 0 :: rest => simp [places, mem_under, at?, operands, ih]
      | (i + 1) :: rest => simp [places, mem_under, at?, operands]

theorem map_snd_places (e : Expr) : e.places.map Prod.snd = e.preorder := by
  induction e with
  | number x => rfl
  | binary op left right ihl ihr =>
      rw [places, List.map_cons, List.map_append, map_snd_under, map_snd_under, ihl, ihr, preorder]
  | apply f argument ih => rw [places, List.map_cons, map_snd_under, ih, preorder]

theorem length_columns (e : Expr) (address : List Nat) :
    (e.columns address).length = 3 * (address.length + 1) := by
  have hcolumn (k : Nat) : (if e.HasLaterSibling (address.take k) then ['│', ' ', ' ']
      else [' ', ' ', ' ']).length = 3 := by
    split <;> rfl
  have hown : (if e.HasLaterSibling address then ['├', '─', ' '] else ['└', '─', ' ']).length =
      3 := by
    split <;> rfl
  rw [columns, List.length_append, List.length_flatMap, hown]
  simp only [hcolumn, List.map_const', List.sum_replicate, List.length_range, smul_eq_mul]
  omega

/-- The outline that a tree adds to a builder. -/
def item : Expr → Outline
  | number x => .item (number x).label []
  | binary op left right => .item (binary op left right).label [left.item, right.item]
  | apply f argument => .item (apply f argument).label [argument.item]

/-- By induction on the tree, for every builder: each item that is opened is closed again. -/
theorem addTo_eq (b : Outline.Builder) (e : Expr) :
    e.addTo b = { b with below := b.below ++ [e.item] } := by
  induction e generalizing b with
  | number x => rfl
  | binary op left right ihl ihr => rw [addTo, ihl, ihr]; rfl
  | apply f argument ih => rw [addTo, ih]; rfl

/-- The columns of a tree that hangs below others; `later` says whether a sibling of it follows. -/
def columnsBelow (later : Bool) (e : Expr) (address : List Nat) : List Char :=
  (List.range address.length).flatMap (fun k => Outline.bar (!e.hasLater later (address.take k))) ++
    Outline.hook (!e.hasLater later address)

theorem columnsBelow_cons {e operand : Expr} {i : Nat} (h : e.operands[i]? = some operand)
    (later : Bool) (address : List Nat) :
    e.columnsBelow later (i :: address) =
      Outline.bar (!later) ++ operand.columnsBelow (i + 1 < e.operands.length) address := by
  simp [columnsBelow, List.range_succ_eq_map, List.flatMap_map, hasLater, h]

theorem columnsBelow_false (e : Expr) (address : List Nat) :
    e.columnsBelow false address = e.columns address := by
  have hlater (address : List Nat) :
      e.hasLater false address = decide (e.HasLaterSibling address) := by
    rw [Bool.eq_iff_iff, hasLater_eq_true_iff]
    simp
  rw [columnsBelow, columns]
  simp only [hlater]
  simp [Outline.bar, Outline.hook]

/-- The nodes under an operand have the lines of the operand alone, behind one more column. -/
theorem map_under {e operand : Expr} {i : Nat} (h : e.operands[i]? = some operand)
    (indent : List Char) (later : Bool) (ps : List (List Nat × Expr)) :
    (under i ps).map (fun place => indent ++ e.columnsBelow later place.1 ++ place.2.label) =
      ps.map fun place => indent ++ Outline.bar (!later) ++
        operand.columnsBelow (i + 1 < e.operands.length) place.1 ++ place.2.label := by
  rw [under, List.map_map]
  refine List.map_congr_left fun place _ => ?_
  simp only [Function.comp_apply, columnsBelow_cons h, List.append_assoc]

/-- The lines of a tree wherever it hangs. By induction on the tree, for every indentation. -/
theorem lines_item (e : Expr) (indent : List Char) (later : Bool) :
    e.item.lines indent (!later) =
      e.places.map fun place => indent ++ e.columnsBelow later place.1 ++ place.2.label := by
  induction e generalizing indent later with
  | number x => rfl
  | binary op left right ihl ihr =>
      have hl := ihl (indent ++ Outline.bar (!later)) true
      have hr := ihr (indent ++ Outline.bar (!later)) false
      rw [item, Outline.lines, Outline.linesBelow, Outline.linesBelow, Outline.linesBelow,
        List.append_nil, places, List.map_cons, List.map_append, map_under rfl, map_under rfl]
      exact congrArg₂ (fun left right => _ :: (left ++ right)) hl hr
  | apply f argument ih =>
      have ha := ih (indent ++ Outline.bar (!later)) false
      rw [item, Outline.lines, Outline.linesBelow, Outline.linesBelow, List.append_nil, places,
        List.map_cons, map_under rfl]
      exact congrArg (List.cons _) ha

/-- The root by itself, as a token. -/
def root : Expr → Token
  | number x => .number x
  | binary op _ _ => .binary op
  | apply f _ => .func f

theorem label_eq (e : Expr) : e.label = e.root.chars := by
  cases e <;> rfl

theorem mem_preorder_self (e : Expr) : e ∈ e.preorder := by
  cases e <;> simp [preorder]

theorem outline_eq (e : Expr) :
    e.outline = String.ofList (("expression".toList ::
      e.places.map fun place => e.columns place.1 ++ place.2.label).flatMap (· ++ ['\n'])) := by
  have hlines := e.lines_item [] false
  rw [Bool.not_false] at hlines
  rw [outline, addTo_eq, Outline.Builder.start, Outline.Builder.build, List.foldl_nil,
    List.nil_append, Outline.draw, Outline.linesBelow, Outline.linesBelow, List.append_nil,
    List.isEmpty_nil, hlines]
  simp only [List.nil_append, columnsBelow_false]

/-- All numbers in the tree are finite. -/
def IsFinite (e : Expr) : Prop := ∀ x, number x ∈ e.preorder → Number.isFinite x = true

theorem IsFinite.root {e node : Expr} (h : e.IsFinite) (hnode : node ∈ e.preorder) :
    ∀ x, node.root = .number x → Number.isFinite x = true := by
  cases node with
  | number y =>
      intro x hx
      obtain rfl := Token.number.inj hx
      exact h y hnode
  | binary _ _ _ | apply _ _ => exact fun x hx => nomatch hx

theorem IsFinite.of_mem {e operand : Expr} (h : e.IsFinite) (hmem : operand ∈ e.operands) :
    operand.IsFinite := by
  intro x hx
  refine h x ?_
  cases e with
  | number y => cases hmem
  | binary op left right =>
      rcases List.mem_pair.mp hmem with rfl | rfl <;> simp [preorder, hx]
  | apply f argument =>
      obtain rfl := List.mem_singleton.mp hmem
      exact List.mem_cons_of_mem _ hx

theorem isTokenChar_of_mem_label {e node : Expr} (h : e.IsFinite) (hnode : node ∈ e.preorder) :
    ∀ c ∈ node.label, Token.isTokenChar c = true := by
  rw [label_eq]
  exact fun c => Token.isTokenChar_of_mem_chars (h.root hnode)

/-- The labels in preorder, each on a line of its own. -/
def labels (e : Expr) : List Char := e.preorder.flatMap fun node => node.label ++ ['\n']

theorem labels_eq (e : Expr) : e.labels = e.label ++ '\n' :: e.operands.flatMap labels := by
  cases e <;> simp [labels, preorder, operands]

theorem root_eq_of_labels_append {e e' : Expr} (he : e.IsFinite) (he' : e'.IsFinite)
    {rest rest' : List Char} (h : e.labels ++ rest = e'.labels ++ rest') :
    e.root = e'.root ∧
      e.operands.flatMap labels ++ rest = e'.operands.flatMap labels ++ rest' := by
  have hnewline : Token.isTokenChar '\n' = false := by decide
  rw [labels_eq, labels_eq, List.append_assoc, List.append_assoc, List.cons_append,
    List.cons_append] at h
  have hlabel := congrArg (List.takeWhile Token.isTokenChar) h
  rw [List.takeWhile_append_of_pos (isTokenChar_of_mem_label he e.mem_preorder_self),
    List.takeWhile_append_of_pos (isTokenChar_of_mem_label he' e'.mem_preorder_self),
    List.takeWhile_cons_of_neg (by simp [hnewline]),
    List.takeWhile_cons_of_neg (by simp [hnewline]), List.append_nil, List.append_nil] at hlabel
  rw [hlabel] at h
  have hbelow := (List.cons.inj (List.append_cancel_left h)).2
  rw [label_eq, label_eq] at hlabel
  have hroot := Token.chars_injective (he.root e.mem_preorder_self)
    (he'.root e'.mem_preorder_self) hlabel
  exact ⟨hroot, hbelow⟩

/-- By induction on the tree: its labels end where those of no other tree go on. -/
theorem eq_of_labels_append {e e' : Expr} (he : e.IsFinite) (he' : e'.IsFinite)
    {rest rest' : List Char} (h : e.labels ++ rest = e'.labels ++ rest') :
    e = e' ∧ rest = rest' := by
  induction e generalizing e' rest rest' with
  | number x =>
      obtain ⟨hroot, hbelow⟩ := root_eq_of_labels_append he he' h
      cases e' with
      | number y =>
          obtain rfl := Token.number.inj hroot
          exact ⟨rfl, hbelow⟩
      | binary _ _ _ | apply _ _ => cases hroot
  | binary op left right ihl ihr =>
      obtain ⟨hroot, hbelow⟩ := root_eq_of_labels_append he he' h
      cases e' with
      | binary op' left' right' =>
          obtain rfl := Token.binary.inj hroot
          simp only [operands, List.flatMap_cons, List.flatMap_nil, List.append_nil,
            List.append_assoc] at hbelow
          obtain ⟨rfl, hright⟩ := ihl (he.of_mem (by simp [operands]))
            (he'.of_mem (by simp [operands])) hbelow
          obtain ⟨rfl, hrest⟩ := ihr (he.of_mem (by simp [operands]))
            (he'.of_mem (by simp [operands])) hright
          exact ⟨rfl, hrest⟩
      | number _ | apply _ _ => cases hroot
  | apply f argument ih =>
      obtain ⟨hroot, hbelow⟩ := root_eq_of_labels_append he he' h
      cases e' with
      | apply f' argument' =>
          obtain rfl := Token.func.inj hroot
          simp only [operands, List.flatMap_cons, List.flatMap_nil, List.append_nil] at hbelow
          obtain ⟨rfl, hrest⟩ := ih (he.of_mem (by simp [operands]))
            (he'.of_mem (by simp [operands])) hbelow
          exact ⟨rfl, hrest⟩
      | number _ | binary _ _ _ => cases hroot

/-- Whether a character is part of a label or ends a line. -/
def isKept (c : Char) : Bool := Token.isTokenChar c || c == '\n'

theorem filter_columns (e : Expr) (address : List Nat) :
    (e.columns address).filter isKept = [] := by
  have hcolumn (k : Nat) : (if e.HasLaterSibling (address.take k) then ['│', ' ', ' ']
      else [' ', ' ', ' ']).filter isKept = [] := by
    split <;> decide +kernel
  have hown : (if e.HasLaterSibling address then ['├', '─', ' ']
      else ['└', '─', ' ']).filter isKept = [] := by
    split <;> decide +kernel
  rw [columns, List.filter_append, List.filter_flatMap, hown]
  simp [hcolumn]

theorem filter_line {e node : Expr} (h : e.IsFinite) (hnode : node ∈ e.preorder)
    (address : List Nat) :
    (e.columns address ++ node.label ++ ['\n']).filter isKept = node.label ++ ['\n'] := by
  have hlabel : node.label.filter isKept = node.label :=
    List.filter_eq_self.mpr fun c hc => by simp [isKept, isTokenChar_of_mem_label h hnode c hc]
  rw [List.filter_append, List.filter_append, filter_columns, hlabel, List.nil_append]
  rfl

/-- Without the columns, a drawing is the labels of the tree below the heading. -/
theorem filter_outline {e : Expr} (h : e.IsFinite) :
    e.outline.toList.filter isKept = "expression\n".toList ++ e.labels := by
  have hlines : ∀ place ∈ e.places,
      (e.columns place.1 ++ place.2.label ++ ['\n']).filter isKept = place.2.label ++ ['\n'] := by
    intro place hplace
    refine filter_line h ?_ place.1
    rw [← map_snd_places]
    exact List.mem_map_of_mem hplace
  have hheading : ("expression".toList ++ ['\n']).filter isKept = "expression\n".toList := by
    decide +kernel
  rw [outline_eq, String.toList_ofList, List.flatMap_cons, List.filter_append, hheading,
    List.filter_flatMap, List.flatMap_map, labels, ← map_snd_places, List.flatMap_map]
  exact congrArg _ (List.flatMap_congr hlines)

theorem outline_injective {e e' : Expr} (he : e.IsFinite) (he' : e'.IsFinite)
    (h : e.outline = e'.outline) : e = e' := by
  have hlabels := filter_outline he
  rw [h, filter_outline he', List.append_cancel_left_eq] at hlabels
  exact (eq_of_labels_append he he' (congrArg (· ++ []) hlabels.symm)).1

/-- A drawing has one line for each node below its heading, in preorder, and on each line three
characters for each level in front of the label. Trees of finite numbers have one drawing only if
they are one tree. -/
theorem outline_faithful (e : Expr) :
    e.outline = String.ofList (("expression".toList ::
        e.places.map fun place => e.columns place.1 ++ place.2.label).flatMap (· ++ ['\n'])) ∧
      e.places.map Prod.snd = e.preorder ∧
      (∀ address node, (address, node) ∈ e.places ↔ e.at? address = some node) ∧
      (∀ address, (e.columns address).length = 3 * (address.length + 1)) ∧
      ∀ e', e.IsFinite → e'.IsFinite → e.outline = e'.outline → e = e' :=
  ⟨e.outline_eq, e.map_snd_places, e.mem_places_iff, e.length_columns,
    fun _ he he' => outline_injective he he'⟩

/-- A tenth is drawn alike however it is computed, and a zero with its sign. -/
theorem outline_faithful_tenth :
    let e := binary .subtract (apply .sqrt (number 0.1)) (number (-0.0))
    let e' := binary .subtract (apply .sqrt (number (1 / 10))) (number (0 / -1))
    e.outline = "expression\n└─ -\n   ├─ sqrt\n   │  └─ 0.1\n   └─ -0\n" ∧
      e.IsFinite ∧ e'.IsFinite ∧ e.outline = e'.outline ∧ e = e' := by
  intro e e'
  have hfinite {x y : Float} (hx : Number.isFinite x = true) (hy : Number.isFinite y = true) :
      (binary .subtract (apply .sqrt (number x)) (number y)).IsFinite := by
    intro z hz
    simp only [preorder, List.mem_cons, List.cons_append, List.nil_append, reduceCtorEq, false_or,
      number.injEq, List.not_mem_nil, or_false] at hz
    rcases hz with rfl | rfl
    · exact hx
    · exact hy
  have he : e.IsFinite := hfinite (by decide +kernel) (by decide +kernel)
  have he' : e'.IsFinite := hfinite (by decide +kernel) (by decide +kernel)
  have houtline : e.outline = e'.outline := by decide +kernel
  exact ⟨by decide +kernel, he, he', houtline, (outline_faithful e).2.2.2.2 e' he he' houtline⟩

end Expr

end Calculator
