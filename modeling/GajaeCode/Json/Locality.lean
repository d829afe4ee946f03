import GajaeCode.Json.Parse
import GajaeCode.Machine.Local
import Mathlib.Data.List.DropRight

/-!
# The parser is local

What the parser reads off the front of a text does not depend on what follows, apart from
characters that would continue a number. So a text that was cut inside an object, or that ends in
foreign characters, is not an object.
-/

namespace GajaeCode.Json

open Text Machine List Option JsValue

variable {rest text tail : JsString} {pre post ends : JsString → Prop}

/-! ## Numbers -/

/-- A digit run is read back in front of anything that is not a digit. -/
theorem takeDigits_local : Local (· ≠ []) DigitsEnd takeDigits takeDigits := by
  intro text digits rest h
  unfold takeDigits at h
  split_ifs at h with hempty
  obtain ⟨rfl, rfl⟩ := h
  refine ⟨text.takeWhile isDigit, takeWhile_append_dropWhile.symm, fun more hmore ↦ ?_⟩
  refine ⟨append_ne_nil_of_left_ne_nil hempty more, ?_⟩
  exact takeDigits_append hempty (fun unit hunit ↦ mem_takeWhile_imp hunit) hmore

theorem parseFraction_local : Local DigitsEnd FractionEnd parseFraction parseFraction := by
  refine Local.of_optional (· = pointUnit) rfl (fun unit rest h ↦ if_neg h)
    (fun more hmore ↦ ⟨hmore.digitsEnd, ?_⟩) fun unit hunit ↦ ?_
  · cases more with
    | nil => rfl
    | cons unit => exact if_neg (hmore unit rfl).2
  · subst hunit
    refine takeDigits_local.weaken (fun _ _ ↦ ?_) fun _ ↦ FractionEnd.digitsEnd
    rintro _ ⟨⟩
    decide

theorem parseExponent_local : Local FractionEnd NumberEnd parseExponent parseExponent := by
  refine Local.of_optional (fun unit ↦ unit = exponentUnit ∨ unit = 0x45) rfl
    (fun unit rest h ↦ by rw [parseExponent.eq_def]; exact if_neg h)
    (fun more hmore ↦ ⟨hmore.fractionEnd, parseExponent_of_numberEnd hmore⟩) fun unit hletter ↦ ?_
  have hend (rest) : FractionEnd (unit :: rest) := by
    rintro _ ⟨⟩
    rcases hletter with rfl | rfl <;> decide
  refine Local.of_solid (fun _ ↦ false) ?_ (fun text ↦ by cases text <;> rfl)
    (fun text ↦ by cases text <;> rfl) (fun _ _ _ _ ↦ hend _) fun sign _ ↦ ?_
  · simp [parseExponent, hletter]
  simp only [parseExponent, if_pos hletter]
  split_ifs
  · exact (takeDigits_local.weaken (fun _ _ ↦ hend _) fun _ ↦ NumberEnd.digitsEnd).map
      fun digits ↦ -(readNat digits : ℤ)
  · exact (takeDigits_local.weaken (fun _ _ ↦ hend _) fun _ ↦ NumberEnd.digitsEnd).map
      fun digits ↦ (readNat digits : ℤ)
  · have hdigits := takeDigits_local.peek (by simp) (by rintro _ ⟨⟩) sign
    exact (hdigits.weaken (fun _ _ ↦ hend _) fun _ ↦ NumberEnd.digitsEnd).map
      fun digits ↦ (readNat digits : ℤ)

theorem parseMagnitude_local (negative : Bool) :
    Local (· ≠ []) NumberEnd (parseMagnitude negative) (parseMagnitude negative) := by
  refine takeDigits_local.bind fun whole ↦ ?_
  dsimp only
  split_ifs
  · exact Local.none
  · exact parseFraction_local.bind fun fraction ↦ parseExponent_local.map
      fun exp ↦ Decimal.ofParts negative (readNat (whole ++ fraction)) (exp - fraction.length)

theorem parseNumber_local : Local (· ≠ []) NumberEnd parseNumber parseNumber := by
  refine Local.of_solid (fun _ ↦ false) rfl (fun text ↦ by cases text <;> rfl)
    (fun text ↦ by cases text <;> rfl) (fun front _ _ ↦ append_ne_nil_of_right_ne_nil front)
    fun unit _ ↦ ?_
  simp only [parseNumber]
  split_ifs
  · exact (parseMagnitude_local true).weaken (fun _ _ ↦ cons_ne_nil _ _) fun _ ↦ id
  · exact (parseMagnitude_local false).peek (by simp) (by rintro _ ⟨⟩) unit

/-! ## Strings and literals -/

/-- One decoded unit in front of a local rest. -/
theorem prepend_local (front : JsString) {body : JsString} {value : UInt16}
    (hfront : ∀ more, parseStringBody (front ++ more) = prepend value (parseStringBody more))
    (ih : ∀ {body}, parseStringBody tail = some (body, rest) → ∃ taken, tail = taken ++ rest ∧
      ∀ more, parseStringBody (taken ++ more) = some (body, more))
    (h : prepend value (parseStringBody tail) = some (body, rest)) :
    ∃ taken, front ++ tail = taken ++ rest ∧ ∀ more,
      parseStringBody (taken ++ more) = some (body, more) := by
  obtain ⟨⟨body', rest'⟩, htail, hres⟩ := map_eq_some_iff.mp h
  obtain ⟨rfl, rfl⟩ := hres
  obtain ⟨taken, rfl, hlocal⟩ := ih htail
  refine ⟨front ++ taken, by rw [append_assoc], fun more ↦ ?_⟩
  rw [append_assoc, hfront, hlocal, prepend, map_some]

theorem exists_taken_parseStringBody {body : JsString}
    (h : parseStringBody text = some (body, rest)) :
    ∃ taken, text = taken ++ rest ∧ ∀ more,
      parseStringBody (taken ++ more) = some (body, more) := by
  -- the induction follows the recursion: end of the string, the two escapes, a plain unit
  fun_induction parseStringBody text generalizing body with
  | case1 => simp at h
  | case2 =>
    obtain ⟨rfl, rfl⟩ := h
    refine ⟨[quoteUnit], rfl, fun more ↦ ?_⟩
    rw [singleton_append, parseStringBody.eq_def]
    simp
  | case3 => simp at h
  | case4 a b c d tail hquote ih =>
    obtain ⟨value, hvalue, h⟩ := bind_eq_some_iff.mp h
    apply prepend_local [backslashUnit, 117, a, b, c, d] (fun more ↦ ?_) ih h
    rw [cons_append, parseStringBody.eq_def]
    simp [hquote, hvalue, prepend]
  | case5 => simp at h
  | case6 letter tail hletter hquote ih =>
    obtain ⟨value, hvalue, h⟩ := bind_eq_some_iff.mp h
    apply prepend_local [backslashUnit, letter] (fun more ↦ ?_) ih h
    rw [cons_append, parseStringBody.eq_def]
    simp [hquote, hletter, hvalue, prepend]
  | case7 => simp at h
  | case8 unit tail hquote hbackslash hctrl ih =>
    exact prepend_local [unit] (fun more ↦ parseStringBody_plain hquote hbackslash hctrl more) ih h

theorem parseStringBody_local (hpre : ∀ text, pre text) :
    Local pre post parseStringBody parseStringBody := by
  intro text body rest h
  obtain ⟨taken, htext, hlocal⟩ := exists_taken_parseStringBody h
  exact ⟨taken, htext, fun more _ ↦ ⟨hpre _, hlocal more⟩⟩

theorem literal_local (value : JsValue) {literal : JsString} (hne : literal ≠ []) :
    Local (· ≠ []) post (fun text ↦ (afterLiteral literal text).map fun rest ↦ (value, rest))
      fun text ↦ (afterLiteral literal text).map fun rest ↦ (value, rest) := by
  intro text _ rest h
  obtain ⟨_, hrest, ⟨⟩⟩ := map_eq_some_iff.mp h
  unfold afterLiteral at hrest
  split_ifs at hrest with hliteral
  obtain ⟨tail, rfl⟩ := isPrefixOf_iff_prefix.mp hliteral
  obtain rfl : tail = rest := by simpa using hrest
  refine ⟨literal, rfl, fun more _ ↦ ⟨append_ne_nil_of_left_ne_nil hne more, ?_⟩⟩
  simp [afterLiteral]

/-! ## Values -/

theorem skipWhitespace_dropWhile (text : JsString) :
    skipWhitespace (text.dropWhile isWhitespace) = skipWhitespace text :=
  dropWhile_idempotent _ _

theorem parseKey_local : Local (· ≠ []) post parseKey parseKey := by
  refine Local.of_solid isWhitespace rfl (fun text ↦ by simp only [parseKey, skipWhitespace_dropWhile])
    (fun text ↦ by simp only [parseKey, skipWhitespace_dropWhile])
    (fun front _ _ ↦ append_ne_nil_of_right_ne_nil front) fun unit hsolid ↦ ?_
  simp only [parseKey, skipWhitespace_cons hsolid]
  split_ifs
  · have hbody : Local (unit :: · ≠ []) (fun _ ↦ True) parseStringBody parseStringBody :=
      parseStringBody_local (cons_ne_nil unit)
    refine hbody.bind fun key ↦ ?_
    refine Local.of_solid isWhitespace rfl (fun text ↦ by simp only [skipWhitespace_dropWhile])
      (fun text ↦ by simp only [skipWhitespace_dropWhile]) (fun _ _ _ _ ↦ trivial) fun next hnext ↦ ?_
    simp only [skipWhitespace_cons hnext]
    split_ifs
    · exact Local.pure key fun _ _ ↦ trivial
    · exact Local.none
  · exact Local.none

/-- Space does not continue a number. -/
theorem numberEnd_space {space : JsString} (hspace : ∀ other ∈ space, isWhitespace other)
    (h : NumberEnd rest) : NumberEnd (space ++ rest) := by
  cases space with
  | nil => exact h
  | cons first =>
    apply numberEnd_cons
    have hfirst := hspace first mem_cons_self
    simp only [isWhitespace, Bool.or_eq_true, decide_eq_true_eq] at hfirst
    rcases hfirst with ((rfl | rfl) | rfl) | rfl <;> decide

/-- The inside of an array or object, which takes something, and then has what a rest behind the
closing mark gives. -/
abbrev ListLocal {α : Type} (ends post : JsString → Prop)
    (list list' : JsString → Option (α × JsString)) : Prop :=
  Local (fun text ↦ text ≠ [] ∧ ends text) post list list'

section

variable {α : Type} {list list' : JsString → Option (List α × JsString)} {close : UInt16}
  (hends : ∀ front text, ends text → ends (front ++ text))
  (hclose : ∀ more, post more → ends (close :: more))
include hends hclose

/-- The mark behind an item of a list, and the rest of the list. -/
theorem mark_local (item : α) (hnumber : ∀ more, NumberEnd (close :: more))
    (hlist : ListLocal ends post list list') :
    let marked (list : JsString → Option (List α × JsString)) (text : JsString) :=
      match skipWhitespace text with
      | unit :: rest =>
          if unit = commaUnit then (list rest).map fun parsed ↦ (item :: parsed.1, parsed.2)
          else if unit = close then some ([item], rest)
          else none
      | [] => none
    Local (fun text ↦ NumberEnd text ∧ ends text) post (marked list) (marked list') := by
  intro marked
  refine Local.of_solid isWhitespace rfl (fun text ↦ by simp only [marked, skipWhitespace_dropWhile])
    (fun text ↦ by simp only [marked, skipWhitespace_dropWhile])
    (fun front text hfront htext ↦ ⟨numberEnd_space hfront htext.1, hends front text htext.2⟩)
    fun unit hsolid ↦ ?_
  simp only [marked, skipWhitespace_cons hsolid]
  split_ifs with hcomma hend
  · subst hcomma
    exact (hlist.weaken (fun text htext ↦ ⟨numberEnd_cons (by decide), hends [commaUnit] text htext.2⟩)
      fun _ ↦ id).map (item :: ·)
  · subst hend
    exact Local.pure [item] fun more hmore ↦ ⟨hnumber more, hclose more hmore⟩
  · exact Local.none

/-- The inside of an array or object behind its opening mark. -/
theorem bracketed_local (build : List α → JsValue) (hpost : post [])
    (hlist : ListLocal ends post list list') :
    let bracketed (list : JsString → Option (List α × JsString)) (text : JsString) :=
      match skipWhitespace text with
      | next :: rest =>
          if next = close then some (build [], rest)
          else (list (next :: rest)).map fun parsed ↦ (build parsed.1, parsed.2)
      | [] => none
    Local ends post (bracketed list) (bracketed list') := by
  intro bracketed
  refine Local.of_solid isWhitespace rfl (fun text ↦ by simp only [bracketed, skipWhitespace_dropWhile])
    (fun text ↦ by simp only [bracketed, skipWhitespace_dropWhile]) (fun front text _ ↦ hends front text)
    fun unit hsolid ↦ ?_
  simp only [bracketed, skipWhitespace_cons hsolid]
  split_ifs with hend
  · subst hend
    exact Local.pure _ hclose
  · exact ((hlist.peek (by simp) hpost unit).weaken (fun _ htext ↦ htext.2) fun _ ↦ id).map build

end

variable {fuel fuel' : ℕ}

theorem parseMembers_local_succ (hends : ∀ front text, ends text → ends (front ++ text))
    (hclose : ∀ more, post more → ends (closeBraceUnit :: more))
    (hvalue : Local (· ≠ []) NumberEnd (parseValue fuel) (parseValue fuel'))
    (hmems : ListLocal ends post (parseMembers fuel) (parseMembers fuel')) :
    ListLocal ends post (parseMembers (fuel + 1)) (parseMembers (fuel' + 1)) := by
  have hkey : Local (· ≠ []) (· ≠ []) parseKey parseKey := parseKey_local
  refine (hkey.and hends).bind fun key ↦ ?_
  dsimp only
  exact (hvalue.and hends).bind fun value ↦
    mark_local hends hclose (key, value) (fun _ ↦ numberEnd_cons (by decide)) hmems

theorem parseValue_local_succ
    (hitems : ListLocal (fun _ ↦ True) (fun _ ↦ True) (parseItems fuel) (parseItems fuel'))
    (hmems : ListLocal (fun _ ↦ True) (fun _ ↦ True) (parseMembers fuel) (parseMembers fuel')) :
    Local (· ≠ []) NumberEnd (parseValue (fuel + 1)) (parseValue (fuel' + 1)) := by
  refine Local.of_solid isWhitespace rfl (fun text ↦ by simp only [parseValue, skipWhitespace_dropWhile])
    (fun text ↦ by simp only [parseValue, skipWhitespace_dropWhile])
    (fun front _ _ ↦ append_ne_nil_of_right_ne_nil front) fun unit hsolid ↦ ?_
  simp only [parseValue, skipWhitespace_cons hsolid]
  split_ifs
  · exact (parseStringBody_local (cons_ne_nil unit)).map str
  · exact (bracketed_local (fun _ _ ↦ id) (fun _ ↦ id) arr trivial hitems).weaken
      (fun text _ ↦ cons_ne_nil unit text) fun _ _ ↦ trivial
  · exact (bracketed_local (fun _ _ ↦ id) (fun _ ↦ id) obj trivial hmems).weaken
      (fun text _ ↦ cons_ne_nil unit text) fun _ _ ↦ trivial
  · exact (literal_local _ (by decide)).peek (by simp) (by rintro _ ⟨⟩) unit
  · exact (literal_local _ (by decide)).peek (by simp) (by rintro _ ⟨⟩) unit
  · exact (literal_local _ (by decide)).peek (by simp) (by rintro _ ⟨⟩) unit
  · exact (parseNumber_local.peek (by simp) (by rintro _ ⟨⟩) unit).map JsValue.num

/-- What was read with some fuel is read again with at least as much, a value in front of any text
that does not continue a number. -/
theorem parser_local (hfuel : fuel ≤ fuel') :
    Local (· ≠ []) NumberEnd (parseValue fuel) (parseValue fuel') ∧
      ListLocal (fun _ ↦ True) (fun _ ↦ True) (parseItems fuel) (parseItems fuel') ∧
        ListLocal (fun _ ↦ True) (fun _ ↦ True) (parseMembers fuel) (parseMembers fuel') := by
  induction fuel generalizing fuel' with
  | zero => exact ⟨Local.none, Local.none, Local.none⟩
  | succ fuel ih =>
    obtain ⟨fuel', rfl⟩ : ∃ n, fuel' = n + 1 := ⟨fuel' - 1, by omega⟩
    obtain ⟨hvalue, hitems, hmems⟩ := ih (Nat.le_of_succ_le_succ hfuel)
    refine ⟨parseValue_local_succ hitems hmems, (hvalue.and fun _ _ ↦ id).bind fun item ↦ ?_,
      parseMembers_local_succ (fun _ _ ↦ id) (fun _ ↦ id) hvalue hmems⟩
    exact mark_local (fun _ _ ↦ id) (fun _ ↦ id) item (fun _ ↦ numberEnd_cons (by decide)) hitems

/-- What is taken of an object ends in its closing brace. -/
theorem getLast_of_parseValue_object {value : JsValue}
    (h : parseValue (fuel + 1) (openBraceUnit :: tail) = some (value, rest)) :
    ∃ taken, tail = taken ++ rest ∧ taken.getLast? = some closeBraceUnit := by
  have hends : ∀ front text : JsString, text.getLast? = some closeBraceUnit →
      (front ++ text).getLast? = some closeBraceUnit := by
    intro front text htext
    rw [getLast?_append, htext, some_or]
  have hclose : ∀ more, more = [] → (closeBraceUnit :: more).getLast? = some closeBraceUnit := by
    rintro _ rfl
    rfl
  have hmems : ListLocal (·.getLast? = some closeBraceUnit) (· = []) (parseMembers fuel)
      (parseMembers fuel) := by
    clear h
    induction fuel with
    | zero => exact Local.none
    | succ fuel ih => exact parseMembers_local_succ hends hclose (parser_local le_rfl).1 ih
  obtain ⟨taken, htail, hlocal⟩ := bracketed_local hends hclose obj rfl hmems h
  have htaken := (hlocal [] rfl).1
  rw [append_nil] at htaken
  exact ⟨taken, htail, htaken⟩

/-- A text cut off inside an object is no JSON text, nor is one that ends in a replacement
character behind the cut. -/
theorem parseJson_torn {fields : Fields} {head junk : JsString}
    (hhead : head <+: valueText (.obj fields)) (hjunk : junk = [] ∨ junk = [replacementUnit])
    (h : (parseJson (head ++ junk)).isSome) : head = valueText (.obj fields) ∧ junk = [] := by
  have hobject : valueText (.obj fields) =
      openBraceUnit :: (joinComma (fieldTexts fields) ++ [closeBraceUnit]) := rfl
  obtain ⟨cut, hcut⟩ := hhead
  cases head with
  | nil =>
    rcases hjunk with rfl | rfl <;> cases h
  | cons unit tail =>
    obtain rfl : unit = openBraceUnit := by
      rw [hobject, cons_append, cons.injEq] at hcut
      exact hcut.1
    obtain ⟨value, hvalue⟩ := isSome_iff_exists.mp h
    obtain ⟨tree, htree, -⟩ := map_eq_some_iff.mp hvalue
    obtain ⟨⟨tree', rest⟩, hread, hspace⟩ := bind_eq_some_iff.mp htree
    split_ifs at hspace with hnothing
    have hrest := dropWhile_eq_nil_iff.mp hnothing
    rw [cons_append] at hread
    rcases hjunk with rfl | rfl
    · have hfuel : (openBraceUnit :: (tail ++ [])).length ≤ (valueText (.obj fields)).length := by
        rw [← hcut, append_nil, length_append]
        exact Nat.le_add_right _ _
      obtain ⟨taken, htail, hlocal⟩ := bracketed_local (fun _ _ ↦ id) (fun _ ↦ id) obj trivial
        (parser_local hfuel).2.2 hread
      -- the whole text is read with nothing left, so nothing was cut off
      have hwhole : parseValue ((valueText (.obj fields)).length + 1) (openBraceUnit :: (tail ++ cut)) =
          some (tree', rest ++ cut) := by
        rw [← append_nil tail, htail, append_assoc]
        exact (hlocal (rest ++ cut) trivial).2
      have hback := readsBack (.obj fields) ((valueText (.obj fields)).length + 1) []
        (Nat.le_succ _) (by intro unit hunit; simp at hunit)
      rw [append_nil, ← hcut, cons_append] at hback
      rw [← hcut, cons_append, hback, some.injEq, Prod.mk.injEq] at hwhole
      rw [(append_eq_nil_iff.mp hwhole.2.symm).2, append_nil] at hcut
      exact ⟨hcut, rfl⟩
    · obtain ⟨taken, htail, htaken⟩ := getLast_of_parseValue_object hread
      have hlast := congrArg getLast? htail
      rw [getLast?_concat, getLast?_append, htaken] at hlast
      cases hunit : rest.getLast? with
      | none =>
        rw [hunit] at hlast
        cases hlast
      | some unit =>
        rw [hunit, some_or, some.injEq] at hlast
        exact absurd (hrest unit (mem_of_getLast? hunit)) (by rw [← hlast]; decide)

end GajaeCode.Json
