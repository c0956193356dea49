import Downlevel.Lowering
import Mathlib.Data.List.Infix

/-!
# Reading a call back

The call that stands for a fold tells the fold. Its head ends at the first
opening parenthesis, since no name holds one, and the last underscore of the
head parts the name from the direction. The arguments are parted by the first
comma that a space follows, unless an operand holds such a comma itself; a comma
at the end of an operand does no harm, as what comes next is no space.
-/

namespace Downlevel

/-- Behind `xs`, the mark is met at once and not earlier. -/
def MarkedFirst (mark xs : List Char) : Prop :=
  ∀ before after, xs ++ mark = before ++ mark ++ after → after = []

/-- What stands in front of the first mark is told by the whole. -/
theorem MarkedFirst.append_inj {mark xs ys rest rest' : List Char} (hx : MarkedFirst mark xs)
    (hy : MarkedFirst mark ys) (h : xs ++ mark ++ rest = ys ++ mark ++ rest') :
    xs = ys ∧ rest = rest' := by
  rcases List.append_eq_append_iff.1 h with ⟨more, hys, hrest⟩ | ⟨more, hxs, hrest⟩
  · obtain rfl := hy xs more hys
    rw [List.append_nil] at hys
    exact ⟨(List.append_cancel_right hys).symm, hrest⟩
  · obtain rfl := hx ys more hxs
    rw [List.append_nil] at hxs
    exact ⟨List.append_cancel_right hxs, hrest.symm⟩

theorem markedFirst_singleton {c : Char} {xs : List Char} (h : c ∉ xs) : MarkedFirst [c] xs := by
  intro before after hsplit
  rcases List.eq_nil_or_concat' after with rfl | ⟨after', last, rfl⟩
  · rfl
  · rw [← List.append_assoc] at hsplit
    obtain ⟨hxs, _⟩ := List.append_inj' hsplit rfl
    exact absurd (hxs ▸ by simp) h

/-! ### Arguments -/

def separator : List Char := [',', ' ']

def Unbroken (text : List Char) : Prop := ¬ separator <:+: text

instance : DecidablePred Unbroken := fun text => inferInstanceAs (Decidable (¬ separator <:+: text))

theorem Unbroken.concat {text : List Char} (h : Unbroken text) {c : Char} (hc : c ≠ ' ') :
    Unbroken (text ++ [c]) := by
  intro hinfix
  rcases List.infix_concat_iff.1 hinfix with ⟨before, hsuffix⟩ | hinfix
  · have hlast : (before ++ [','] ++ [' ']).getLast? = (text ++ [c]).getLast? := by
      rw [← hsuffix, separator, List.append_assoc]
      rfl
    rw [List.getLast?_concat, List.getLast?_concat] at hlast
    exact hc (Option.some.inj hlast).symm
  · exact h hinfix

/-- The separator does not start inside a text that does not hold it whole. -/
theorem Unbroken.markedFirst {text : List Char} (h : Unbroken text) :
    MarkedFirst separator text := by
  intro before after hsplit
  rcases List.eq_nil_or_concat' after with rfl | ⟨after', last, rfl⟩
  · rfl
  · -- One letter fewer on both sides: the separator would lie in `text` or end with its comma.
    have hconcat : (text ++ [',']) ++ [' '] = (before ++ separator ++ after') ++ [last] := by
      simpa [separator] using hsplit
    obtain ⟨hfront, _⟩ := List.append_inj' hconcat rfl
    exact absurd ⟨before, after', hfront.symm⟩ (h.concat (by decide))

def joined (first : List Char) : Option (List Char) → List Char
  | none => first
  | some second => first ++ separator ++ second

theorem joined_inj {first first' : List Char} {second second' : Option (List Char)}
    (h : Unbroken first) (h' : Unbroken first')
    (heq : joined first second = joined first' second') :
    first = first' ∧ second = second' := by
  cases second with
  | none =>
    cases second' with
    | none => exact ⟨heq, rfl⟩
    | some s' => exact absurd ⟨first', s', heq.symm⟩ h
  | some s =>
    cases second' with
    | none => exact absurd ⟨first, s, heq⟩ h'
    | some s' =>
      obtain ⟨hfirst, hsecond⟩ := h.markedFirst.append_inj h'.markedFirst heq
      exact ⟨hfirst, by rw [hsecond]⟩

/-- The first argument of the call of a fold, and the second one of a binary fold. -/
def foldArguments : Direction → String → Option String → List Char × Option (List Char)
  | .left, pattern, some init => (init.toList, some (pattern.toList ++ ['.', '.', '.']))
  | _, pattern, init => (pattern.toList ++ ['.', '.', '.'], init.map String.toList)

theorem foldArguments_inj {direction : Direction} {pattern pattern' : String}
    {init init' : Option String}
    (h : foldArguments direction pattern init = foldArguments direction pattern' init') :
    pattern = pattern' ∧ init = init' := by
  cases direction <;> cases init <;> cases init' <;>
    simp_all [foldArguments, String.toList_inj]

theorem unbroken_foldArguments (direction : Direction) {pattern : String} {init : Option String}
    (hpattern : Unbroken pattern.toList) (hinit : ∀ text ∈ init, Unbroken text.toList) :
    Unbroken (foldArguments direction pattern init).1 := by
  have hdots : Unbroken (pattern.toList ++ ['.', '.', '.']) := by
    have hconcat := ((hpattern.concat (c := '.') (by decide)).concat (c := '.')
      (by decide)).concat (c := '.') (by decide)
    simpa using hconcat
  cases direction with
  | left =>
    cases init with
    | none => exact hdots
    | some text => exact hinit text rfl
  | right => cases init <;> exact hdots

/-! ### The head -/

def foldHead (name : String) (direction : Direction) : List Char :=
  "fold_expr_".toList ++ (name.toList ++ '_' :: direction.word.toList)

theorem toList_call (head name word arguments : String) :
    (head ++ name ++ "_" ++ word ++ "(" ++ arguments ++ ")").toList =
      head.toList ++ (name.toList ++ '_' :: word.toList) ++ ['('] ++
        (arguments.toList ++ [')']) := by
  simp

theorem toList_foldCall (name : String) (direction : Direction) (pattern : String)
    (init : Option String) :
    (foldCall name direction pattern init).toList =
      foldHead name direction ++ ['('] ++
        (joined (foldArguments direction pattern init).1 (foldArguments direction pattern init).2 ++
          [')']) := by
  refine (toList_call "fold_expr_" name direction.word _).trans ?_
  congr 2
  cases direction <;> cases init <;> simp [foldArguments, joined, separator]

theorem foldHead_inj {name name' : String} {direction direction' : Direction}
    (h : foldHead name direction = foldHead name' direction') :
    name = name' ∧ direction = direction' := by
  have hword : ∀ d : Direction, '_' ∉ d.word.toList.reverse := by
    intro d
    cases d <;> decide
  unfold foldHead at h
  -- Read backwards, the first underscore is the one in front of the direction.
  have hreverse := congrArg List.reverse (List.append_cancel_left h)
  simp only [List.reverse_append, List.reverse_cons] at hreverse
  obtain ⟨hdirection, hname⟩ := (markedFirst_singleton (hword direction)).append_inj
    (markedFirst_singleton (hword direction')) hreverse
  refine ⟨String.toList_inj.1 (List.reverse_injective hname), ?_⟩
  cases direction <;> cases direction' <;> first | rfl | exact absurd hdirection (by decide)

theorem Operator.mem_all (o : Operator) : o ∈ all := by
  cases o with
  | arithmetic a => cases a <;> decide
  | compound a => cases a <;> decide
  | _ => decide

theorem notMem_foldHead {o : Operator} {name : String} (h : o.foldName? = some name)
    (direction : Direction) : '(' ∉ foldHead name direction := by
  have hall : ∀ o ∈ Operator.all, ∀ name ∈ o.foldName?, ∀ d ∈ [Direction.left, .right],
      '(' ∉ foldHead name d := by
    decide +kernel
  refine hall o o.mem_all name h direction ?_
  cases direction <;> simp

theorem Operator.eq_of_foldName? {o o' : Operator} {name : String}
    (h : o.foldName? = some name) (h' : o'.foldName? = some name) : o = o' := by
  have hall : ∀ o ∈ all, ∀ o' ∈ all, o.foldName?.isSome = true → o.foldName? = o'.foldName? →
      o = o' := by
    decide +kernel
  exact hall o o.mem_all o' o'.mem_all (by rw [h]; rfl) (h.trans h'.symm)

/-- The call of a fold tells its operator and its direction, and, unless the text of an operand
holds the separator of arguments, its operands as well. -/
theorem foldCall_tells_fold {o₁ o₂ : Operator} {name₁ name₂ : String} {d₁ d₂ : Direction}
    {pattern₁ pattern₂ : String} {init₁ init₂ : Option String}
    (h₁ : o₁.foldName? = some name₁) (h₂ : o₂.foldName? = some name₂)
    (h : foldCall name₁ d₁ pattern₁ init₁ = foldCall name₂ d₂ pattern₂ init₂) :
    name₁ = name₂ ∧ d₁ = d₂ ∧ o₁ = o₂ ∧
      ((∀ text ∈ pattern₁ :: pattern₂ :: (init₁.toList ++ init₂.toList), Unbroken text.toList) →
        pattern₁ = pattern₂ ∧ init₁ = init₂) := by
  have htexts := congrArg String.toList h
  rw [toList_foldCall, toList_foldCall] at htexts
  obtain ⟨hhead, harguments⟩ := (markedFirst_singleton (notMem_foldHead h₁ d₁)).append_inj
    (markedFirst_singleton (notMem_foldHead h₂ d₂)) htexts
  obtain ⟨rfl, rfl⟩ := foldHead_inj hhead
  refine ⟨rfl, rfl, Operator.eq_of_foldName? h₁ h₂, fun hunbroken => ?_⟩
  have hfirst₁ : Unbroken (foldArguments d₁ pattern₁ init₁).1 :=
    unbroken_foldArguments d₁ (hunbroken pattern₁ (by simp))
      fun text htext => hunbroken text (by simp [Option.mem_def.1 htext])
  have hfirst₂ : Unbroken (foldArguments d₁ pattern₂ init₂).1 :=
    unbroken_foldArguments d₁ (hunbroken pattern₂ (by simp))
      fun text htext => hunbroken text (by simp [Option.mem_def.1 htext])
  obtain ⟨hfst, hsnd⟩ := joined_inj hfirst₁ hfirst₂ (List.append_cancel_right harguments)
  exact foldArguments_inj (Prod.ext hfst hsnd)

/-- Two folds over `+=` with the same call, of which one has an operand with a separator in it; and
operands with a comma at the end and a space at the front, which can be told apart. -/
theorem foldCall_tells_fold_addAssign :
    foldCall "add_assign" .left "b" (some "a") = foldCall "add_assign" .left "a, b" none ∧
      (¬ ∀ text ∈ ["b", "a, b", "a"], Unbroken text.toList) ∧
      foldCall "add_assign" .right "a,b," (some " c") = "fold_expr_add_assign_right(a,b,...,  c)" ∧
      ∀ text ∈ ["a,b,", "a,b,", " c", " c"], Unbroken text.toList := by
  have hname : (Operator.compound .add).foldName? = some "add_assign" := rfl
  have hsame : foldCall "add_assign" .left "b" (some "a") =
      foldCall "add_assign" .left "a, b" none := by decide
  obtain ⟨_, _, _, hoperands⟩ := foldCall_tells_fold hname hname hsame
  refine ⟨hsame, fun hunbroken => ?_, by decide, by decide⟩
  exact absurd (hoperands hunbroken).1 (by decide)

end Downlevel
