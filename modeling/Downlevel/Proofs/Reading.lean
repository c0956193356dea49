import Downlevel.Arguments.Reading

/-!
# A check in the place of writing

A call that asks for a check reads the rest of its arguments as one that asks for
writing does. The readings differ in one flag only, as long as no later argument
asks for the check as well: that one would be taken once and not twice.
-/

namespace Downlevel

def Flag.swap : Flag → Flag
  | .apply => .check
  | .check => .apply
  | f => f

theorem Flag.swap_swap (f : Flag) : f.swap.swap = f := by cases f <;> rfl

theorem Target.ofShort?_ne_check (c : Char) : Target.ofShort? c ≠ some (.flag .check) := by
  unfold Target.ofShort?
  split <;> exact nofun

theorem Target.eq_check_of_ofLong? {name : String} (h : Target.ofLong? name = some (.flag .check)) :
    name = "check" := by
  unfold Target.ofLong? at h
  split at h <;> first | rfl | cases h

namespace Arguments

def withFlags (flags : List Flag) (a : Arguments) : Arguments := { a with flags := flags }

/-- Values are put into their places whatever the flags are. -/
theorem assign_withFlags (a : Arguments) (flags : List Flag) (slot : Slot)
    (values : List String) :
    (a.withFlags flags).assign slot values = (a.assign slot values).map (withFlags flags) := by
  obtain ⟨_, root, _, maxPasses, _, _, _⟩ := a
  cases values with
  | nil => cases slot <;> rfl
  | cons value rest =>
    cases slot with
    | paths =>
      simp only [assign]
      split <;> rfl
    | root =>
      cases root with
      | some root => rfl
      | none =>
        simp only [assign, withFlags, Option.isSome_none, Bool.false_eq_true, if_false]
        split <;> rfl
    | maxPasses =>
      cases maxPasses with
      | some n => rfl
      | none =>
        simp only [assign, withFlags, Option.isSome_none, Bool.false_eq_true, if_false]
        split <;> rfl
    | exclude => rfl
    | forced => rfl
    | extensions => rfl

theorem flags_assign {a a' : Arguments} {slot : Slot} {values : List String}
    (h : a.assign slot values = .ok a') : a'.flags = a.flags := by
  have hflags : a.withFlags a.flags = a := rfl
  have hassign := assign_withFlags a a.flags slot values
  rw [hflags, h] at hassign
  rw [Except.ok.inj hassign]
  rfl

def swapped (a : Arguments) : Arguments := a.withFlags (a.flags.map Flag.swap)

end Arguments

/-- A reader takes a check in the place of writing, and reads the other words alike. Only words
that ask for a check themselves are no matter of this. -/
structure ArgumentReader.TakesCheck (read : ArgumentReader) : Prop where
  ok : ∀ words a, "--check" ∉ words.takeWhile (· != "--") → read ("--apply" :: words) = .ok a →
    read ("--check" :: words) = .ok a.swapped ∧ .apply ∈ a.flags
  text : ∀ words stop text, "--check" ∉ words.takeWhile (· != "--") →
    read ("--apply" :: words) = .error stop → stop.text? = some text →
      read ("--check" :: words) = .error stop

namespace Arguments

theorem swapped_contains (a : Arguments) (f : Flag) :
    a.swapped.flags.contains f = a.flags.contains f.swap := by
  rw [Bool.eq_iff_iff, List.contains_iff_mem, List.contains_iff_mem]
  change f ∈ a.flags.map Flag.swap ↔ _
  rw [List.mem_map]
  constructor
  · rintro ⟨g, hg, rfl⟩
    rwa [Flag.swap_swap]
  · exact fun h => ⟨f.swap, h, f.swap_swap⟩

theorem swapped_assign (a : Arguments) (slot : Slot) (values : List String) :
    a.swapped.assign slot values = (a.assign slot values).map swapped := by
  rw [swapped, assign_withFlags]
  cases hassign : a.assign slot values with
  | error stop => rfl
  | ok a' =>
    rw [← flags_assign hassign]
    rfl

end Arguments

namespace Reading

def swapped (r : Reading) : Reading := { r with arguments := r.arguments.swapped }

theorem swapped_complete (r : Reading) :
    r.swapped.complete = r.complete.map Arguments.swapped := by
  obtain ⟨a, waiting⟩ := r
  cases waiting with
  | none => rfl
  | some w => exact a.swapped_assign w.1 w.2

theorem flags_complete {r : Reading} {a : Arguments} (h : r.complete = .ok a) :
    a.flags = r.arguments.flags := by
  obtain ⟨a', waiting⟩ := r
  cases waiting with
  | none =>
    cases h
    rfl
  | some w => exact Arguments.flags_assign h

/-- The second result is the first with the two flags traded, and the first call asks for
writing. Where the first call gives a flag twice, nothing is said of the second. -/
inductive Mirrors : Except ArgumentStop Reading → Except ArgumentStop Reading → Prop
  | ok {r : Reading} (apply : .apply ∈ r.arguments.flags) : Mirrors (.ok r) (.ok r.swapped)
  | stop (s : ArgumentStop) : Mirrors (.error s) (.error s)
  | conflict (y : Except ArgumentStop Reading) : Mirrors (.error .conflict) y

theorem Mirrors.bind {x y : Except ArgumentStop Reading} {f : Reading → Except ArgumentStop Reading}
    (h : Mirrors x y)
    (hf : ∀ r : Reading, .apply ∈ r.arguments.flags → Mirrors (f r) (f r.swapped)) :
    Mirrors (x >>= f) (y >>= f) := by
  cases h with
  | ok happly => exact hf _ happly
  | stop s => exact .stop s
  | conflict y => exact .conflict _

/-- Completed values can be used in any way that does not look at flags. -/
theorem mirrors_complete {r : Reading} (happly : .apply ∈ r.arguments.flags)
    {f : Arguments → Except ArgumentStop Reading}
    (hf : ∀ a : Arguments, .apply ∈ a.flags → Mirrors (f a) (f a.swapped)) :
    Mirrors (r.complete >>= f) (r.swapped.complete >>= f) := by
  rw [swapped_complete]
  cases hcomplete : r.complete with
  | error s => exact .stop s
  | ok a =>
    apply hf
    rwa [flags_complete hcomplete]

section Step

variable {r : Reading} (happly : .apply ∈ r.arguments.flags)

include happly

theorem mirrors_raise {t : Target} (ht : t ≠ .flag .check) :
    Mirrors (r.raise t) (r.swapped.raise t) := by
  refine mirrors_complete happly fun a ha => ?_
  cases t with
  | help => exact .stop _
  | version => exact .stop _
  | slot s => exact .ok ha
  | flag f =>
    by_cases hf : f = .apply
    · subst hf
      have hgiven : a.flags.contains .apply = true := List.contains_iff_mem.2 ha
      simp only [hgiven]
      exact .conflict _
    · have hswap : f.swap = f := by
        cases f with
        | apply => exact absurd rfl hf
        | check => exact absurd rfl ht
        | _ => rfl
      simp only [a.swapped_contains, hswap]
      cases a.flags.contains f with
      | true => exact .stop .conflict
      | false =>
        have hflags : (a.flags ++ [f]).map Flag.swap = a.flags.map Flag.swap ++ [f] := by
          rw [List.map_append, List.map_singleton, hswap]
        have hok : Reading.mk { a.swapped with flags := a.swapped.flags ++ [f] } none =
            swapped ⟨{ a with flags := a.flags ++ [f] }, none⟩ := by
          simp only [swapped, Arguments.swapped, Arguments.withFlags, hflags]
        simp only [hok]
        exact .ok (List.mem_append_left [f] ha)

theorem mirrors_long {word : List Char} (hword : word ≠ "check".toList) :
    Mirrors (r.long word) (r.swapped.long word) := by
  have hassign : ∀ slot value,
      Mirrors (r.complete >>= fun a => a.assign slot [value] >>= fun a => .ok ⟨a, none⟩)
        (r.swapped.complete >>= fun a => a.assign slot [value] >>= fun a => .ok ⟨a, none⟩) := by
    intro slot value
    refine mirrors_complete happly fun a ha => ?_
    rw [Arguments.swapped_assign]
    cases hassign : a.assign slot [value] with
    | error s => exact .stop s
    | ok a' =>
      rw [← Arguments.flags_assign hassign] at ha
      exact .ok ha
  rw [long, long]
  cases htarget : Target.ofLong? (String.ofList (word.takeWhile (· != '='))) with
  | none => exact .stop .unknownArgument
  | some t =>
    cases hrest : word.drop (word.takeWhile (· != '=')).length with
    | nil =>
      refine mirrors_raise happly fun ht => hword ?_
      have hname : String.ofList (word.takeWhile (· != '=')) = "check" :=
        Target.eq_check_of_ofLong? (by rw [htarget, ht])
      have hall : word.takeWhile (· != '=') = word :=
        (List.takeWhile_prefix _).eq_of_length_le (List.drop_eq_nil_iff.1 hrest)
      rw [hall] at hname
      rw [← hname, String.toList_ofList]
    | cons c value =>
      cases t with
      | slot s => exact hassign s (String.ofList value)
      | _ => exact .stop .tooManyValues

theorem mirrors_short (letters : List Char) :
    Mirrors (r.short letters) (r.swapped.short letters) := by
  induction letters generalizing r with
  | nil => exact .ok happly
  | cons c cs ih =>
    rw [short, short]
    cases htarget : Target.ofShort? c with
    | none => exact .stop .unknownArgument
    | some t =>
      have ht : t ≠ .flag .check := fun ht => Target.ofShort?_ne_check c (by rw [htarget, ht])
      exact (mirrors_raise happly ht).bind fun r' => ih

theorem mirrors_positional (word : String) :
    Mirrors (r.positional word) (r.swapped.positional word) := by
  have hcomplete : Mirrors (r.complete >>= fun a => .ok ⟨a, some (.paths, [word])⟩)
      (r.swapped.complete >>= fun a => .ok ⟨a, some (.paths, [word])⟩) :=
    mirrors_complete happly fun a ha => by exact .ok ha
  obtain ⟨a, waiting⟩ := r
  cases waiting with
  | none => exact hcomplete
  | some w =>
    obtain ⟨slot, values⟩ := w
    cases slot with
    | paths => exact .ok happly
    | _ => exact hcomplete

theorem mirrors_foldlM (words : List String) :
    Mirrors (words.foldlM positional r) (words.foldlM positional r.swapped) := by
  induction words generalizing r with
  | nil => exact .ok happly
  | cons w ws ih =>
    rw [List.foldlM_cons, List.foldlM_cons]
    exact (mirrors_positional happly w).bind fun r' => ih

theorem mirrors_word {word : String} (hword : word ≠ "--check") :
    Mirrors (r.word word) (r.swapped.word word) := by
  obtain ⟨a, waiting⟩ := r
  change Mirrors (Reading.word ⟨a, waiting⟩ word) (Reading.word ⟨a.swapped, waiting⟩ word)
  unfold Reading.word
  dsimp only
  split
  next cs hcs =>
    refine mirrors_long happly fun hcheck => hword ?_
    rw [← String.ofList_toList (s := word), hcs, hcheck]
    rfl
  next => exact mirrors_short happly _
  next => exact mirrors_positional happly word
  next => exact .ok happly
  next => exact mirrors_positional happly word

theorem mirrors_all {words : List String} (hwords : "--check" ∉ words.takeWhile (· != "--")) :
    Mirrors (r.all words) (r.swapped.all words) := by
  induction words generalizing r with
  | nil => exact .ok happly
  | cons w ws ih =>
    rw [all, all]
    by_cases hw : w = "--"
    · rw [if_pos hw, if_pos hw]
      exact mirrors_foldlM happly ws
    · have hbne : (w != "--") = true := bne_iff_ne.2 hw
      simp only [List.takeWhile_cons, hbne, if_true, List.mem_cons, not_or] at hwords
      rw [if_neg hw, if_neg hw]
      exact (mirrors_word happly fun h => hwords.1 h.symm).bind fun r' happly' =>
        ih happly' hwords.2

end Step

theorem mirrors_all_start {words : List String}
    (hwords : "--check" ∉ words.takeWhile (· != "--")) :
    Mirrors (all {} ("--apply" :: words)) (all {} ("--check" :: words)) := by
  have happly : all {} ("--apply" :: words) = all ⟨{ flags := [.apply] }, none⟩ words := by rfl
  have hcheck : all {} ("--check" :: words) =
      all (swapped ⟨{ flags := [.apply] }, none⟩) words := by rfl
  rw [happly, hcheck]
  exact mirrors_all List.mem_cons_self hwords

end Reading

namespace Arguments

/-- A check goes together with all that writing goes together with. -/
theorem swapped_isContradictory {a : Arguments} (happly : .apply ∈ a.flags)
    (h : a.isContradictory = false) : a.swapped.isContradictory = false := by
  have happly' : a.flags.contains .apply = true := List.contains_iff_mem.2 happly
  simp only [isContradictory, happly', Bool.true_and, Bool.or_eq_false_iff] at h
  obtain ⟨⟨⟨⟨hroot, hcheck⟩, hstdout⟩, _⟩, hquiet⟩ := h
  simp only [isContradictory, swapped_contains, Flag.swap, hcheck, hstdout, hquiet,
    Bool.false_and]
  simpa [swapped, withFlags] using hroot

theorem parse_eq_bind (words : List String) :
    parse words = Reading.all {} words >>= fun r => r.complete >>= fun a =>
      if a.isContradictory then .error .conflict else .ok a := rfl

/-- Arguments that are understood after the flag for writing are so after the one for a check. -/
theorem parse_check_of_ok {words : List String} {a : Arguments}
    (hwords : "--check" ∉ words.takeWhile (· != "--"))
    (h : parse ("--apply" :: words) = .ok a) :
    parse ("--check" :: words) = .ok a.swapped ∧ .apply ∈ a.flags := by
  have hmirrors := Reading.mirrors_all_start hwords
  rw [parse_eq_bind] at h ⊢
  generalize Reading.all {} ("--apply" :: words) = x at h hmirrors
  generalize Reading.all {} ("--check" :: words) = y at hmirrors ⊢
  cases hmirrors with
  | stop s => cases h
  | conflict y => cases h
  | @ok r happly =>
    change (r.complete >>= _) = _ at h
    change (r.swapped.complete >>= _) = _ ∧ _
    rw [Reading.swapped_complete]
    cases hcomplete : r.complete with
    | error s =>
      rw [hcomplete] at h
      cases h
    | ok a' =>
      rw [hcomplete] at h
      rw [← Reading.flags_complete hcomplete] at happly
      change (if _ then _ else _) = _ at h
      cases hc : a'.isContradictory with
      | true =>
        rw [if_pos hc] at h
        cases h
      | false =>
        rw [if_neg (by simp [hc])] at h
        cases h
        exact ⟨if_neg (by simp [swapped_isContradictory happly hc]), happly⟩

theorem parse_check_of_error {words : List String} {stop : ArgumentStop}
    (hwords : "--check" ∉ words.takeWhile (· != "--"))
    (h : parse ("--apply" :: words) = .error stop) (hstop : stop ≠ .conflict) :
    parse ("--check" :: words) = .error stop := by
  have hmirrors := Reading.mirrors_all_start hwords
  rw [parse_eq_bind] at h ⊢
  generalize Reading.all {} ("--apply" :: words) = x at h hmirrors
  generalize Reading.all {} ("--check" :: words) = y at hmirrors ⊢
  cases hmirrors with
  | stop s => exact h
  | conflict y => exact absurd (Except.error.inj h).symm hstop
  | @ok r happly =>
    change (r.complete >>= _) = _ at h
    change (r.swapped.complete >>= _) = _
    rw [Reading.swapped_complete]
    cases hcomplete : r.complete with
    | error s =>
      rw [hcomplete] at h
      exact h
    | ok a =>
      rw [hcomplete] at h
      change (if _ then _ else _) = _ at h
      split at h
      · exact absurd (Except.error.inj h).symm hstop
      · cases h

theorem parse_takesCheck : ArgumentReader.TakesCheck parse where
  ok _ _ := parse_check_of_ok
  text words stop text hwords h htext := by
    refine parse_check_of_error hwords h fun hstop => ?_
    rw [hstop] at htext
    cases htext

end Arguments

end Downlevel
