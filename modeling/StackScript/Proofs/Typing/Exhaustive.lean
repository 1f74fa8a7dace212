import Mathlib.Logic.Relation
import StackScript.Proofs.Typing.Checked
import StackScript.Text.Utf8

/-!
# Exhaustive matches

A match must have an arm for every value of the matched type.  Here the values of a type and the values
that a pattern matches are said without the checker, and its answer is compared with them.

## Design Notes

Strings are bytes, since a program can read them from outside.  An object into which no pattern looks
is its address: two such objects differ for no pattern.
-/

namespace StackScript

/-! ## Values -/

/-- A value as patterns see it. -/
inductive Datum where
  | void
  | bool (value : Bool)
  | int (value : Int)
  | float (value : Binary64)
  | str (bytes : List UInt8)
  /-- Bytes, an array, a struct, a promise or a function. -/
  | object (address : BitVec 32)
  | variant (tag : Nat) (payload : Option Datum)

/-- The values of a type. -/
inductive Datum.Has (t : SymbolTable) : Datum → Ty → Prop
  | void : Has t .void .void
  | bool {b} : Has t (.bool b) .bool
  | int {n kind} (range : kind.contains n = true) : Has t (.int n) (.int kind)
  | float {x} : Has t (.float x) .float
  | str {bs} : Has t (.str bs) .str
  | bytes {a} : Has t (.object a) .bytes
  | array {a elem} : Has t (.object a) (.array elem)
  | promise {a inner} : Has t (.object a) (.promise inner)
  | fn {a params ret} : Has t (.object a) (.fn params ret)
  | struct {a name} : Has t (.object a) (.struct name)
  | tag {tag ty} (found : t.payload? ty tag = some none) : Has t (.variant tag none) ty
  | variant {tag ty payload d} (found : t.payload? ty tag = some (some payload))
      (inner : Has t d payload) : Has t (.variant tag (some d)) ty

/-- Types whose values are variants. -/
def Ty.IsSum (ty : Ty) : Prop :=
  (∃ ok err, ty = .result ok err) ∨ ∃ e, ty = .enum e

variable {tag : Nat} {ty : Ty} {inner : Option Datum}

namespace Datum

variable {t : SymbolTable} {d : Datum}

theorem has_bool : d.Has t .bool ↔ ∃ b, d = .bool b := by
  refine ⟨fun h => ?_, fun ⟨b, h⟩ => h ▸ .bool⟩
  cases h with
  | bool => exact ⟨_, rfl⟩
  | tag found | variant found => cases found

theorem has_int {kind : IntKind} : d.Has t (.int kind) ↔ ∃ n, d = .int n ∧ kind.contains n = true := by
  refine ⟨fun h => ?_, fun ⟨n, h, hn⟩ => h ▸ .int hn⟩
  cases h with
  | int range => exact ⟨_, rfl, range⟩
  | tag found | variant found => cases found

theorem has_float : d.Has t .float ↔ ∃ x, d = .float x := by
  refine ⟨fun h => ?_, fun ⟨x, h⟩ => h ▸ .float⟩
  cases h with
  | float => exact ⟨_, rfl⟩
  | tag found | variant found => cases found

theorem has_str : d.Has t .str ↔ ∃ bs, d = .str bs := by
  refine ⟨fun h => ?_, fun ⟨bs, h⟩ => h ▸ .str⟩
  cases h with
  | str => exact ⟨_, rfl⟩
  | tag found | variant found => cases found

/-- What a variant carries in a value is a value of the declared type. -/
theorem has_variant {payload : Ty} (hfound : t.payload? ty tag = some (some payload)) :
    (Datum.variant tag inner).Has t ty ↔ ∃ d, inner = some d ∧ d.Has t payload := by
  constructor
  · intro h
    cases h with
    | tag found => rw [hfound] at found; cases found
    | variant found inner => 
      rw [hfound] at found
      cases found
      exact ⟨_, rfl, inner⟩
  · rintro ⟨d, rfl, hd⟩
    exact .variant hfound hd

theorem Has.variant_of_isSum (h : d.Has t ty) (hty : ty.IsSum) :
    ∃ tag inner payload, d = .variant tag inner ∧ t.payload? ty tag = some payload := by
  cases h with
  | tag found | variant found _ => exact ⟨_, _, _, rfl, found⟩
  | _ => simp [Ty.IsSum] at hty

end Datum

/-! ## Matching -/

/-- A written name of a variant: `Ok` and `Err` stand alone, and in front of a variant of an enum the
enum's name may stand. -/
inductive SymbolTable.Names (t : SymbolTable) : Option String → String → Ty → Nat → Option Ty → Prop
  | ok {ok err} : Names t none "Ok" (.result ok err) 0 (some ok)
  | err {ok err} : Names t none "Err" (.result ok err) 1 (some err)
  | enum {q e name tag v} (qualifier : q = none ∨ q = some e)
      (found : t.variant? (.enum e) name = some (tag, v)) : Names t q name (.enum e) tag v.payload

/-- The values of a type that a written pattern matches.  A bare name is a variant if the type is an enum
with such a variant, and else matches everything. -/
inductive Pattern.Matches (t : SymbolTable) : Pattern → Ty → Datum → Prop
  | wildcard {span ty d} : Matches t ⟨.wildcard, span⟩ ty d
  | binding {name span ty d} (free : t.variant? ty name = none) :
      Matches t ⟨.binding name, span⟩ ty d
  | bare {name span ty tag v payload} (found : t.variant? ty name = some (tag, v)) :
      Matches t ⟨.binding name, span⟩ ty (.variant tag payload)
  | int {n span kind} : Matches t ⟨.int n, span⟩ (.int kind) (.int n)
  | intAsFloat {n span x} (same : x.equal (.ofInt n) = true) :
      Matches t ⟨.int n, span⟩ .float (.float x)
  | float {y span x} (same : x.equal y = true) : Matches t ⟨.float y, span⟩ .float (.float x)
  | bool {b span} : Matches t ⟨.bool b, span⟩ .bool (.bool b)
  | str {s span} : Matches t ⟨.str s, span⟩ .str (.str (Utf8.encode s))
  | tag {q name span ty tag payloadTy payload} (named : t.Names q name ty tag payloadTy) :
      Matches t ⟨.variant q name none, span⟩ ty (.variant tag payload)
  | variant {q name p span ty tag payloadTy d} (named : t.Names q name ty tag (some payloadTy))
      (inner : Matches t p payloadTy d) :
      Matches t ⟨.variant q name (some p), span⟩ ty (.variant tag (some d))

/-- Whether a checked pattern matches a value. -/
def Typed.Pattern.covers : Typed.Pattern → Datum → Bool
  | .wildcard, _ | .bind _, _ => true
  | .int n _, .int m => n = m
  | .int n _, .float x => x.equal (.ofInt n)
  | .float y, .float x => x.equal y
  | .bool b, .bool c => b = c
  | .str s, .str bs => bs = Utf8.encode s
  | .variant tag none, .variant tag' _ => tag = tag'
  | .variant tag (some (_, p)), .variant tag' (some d) => tag = tag' && p.covers d
  | _, _ => false

namespace Typed.Pattern

theorem covers_tag {d : Datum} : (variant tag none).covers d = true ↔ ∃ payload, d = .variant tag payload := by
  cases d with
  | variant tag' payload => simp [covers, @eq_comm _ tag]
  | _ => simp [covers]

theorem covers_variant {p : Pattern} {d : Datum} : (variant tag (some (ty, p))).covers d = true ↔
      ∃ inner, d = .variant tag (some inner) ∧ p.covers inner = true := by
  cases d with
  | variant tag' payload => cases payload <;> simp [covers, @eq_comm _ tag]
  | _ => simp [covers]

theorem covers_of_isCatchAll {p : Pattern} (h : p.isCatchAll = true) (d : Datum) : p.covers d = true := by
  cases p with
  | wildcard | bind => simp [covers]
  | _ => cases h

end Typed.Pattern

variable {ps : List Typed.Pattern} {rest : List Typed.Pattern → Ty → List String}

namespace SymbolTable

variable {t : SymbolTable}

/-- The checker finds the variant that a name means. -/
theorem variantOf_eq_ok {q : Option String} {name : String} {ty : Ty} {span : Span} {tag : Nat} {payload : Option Ty} :
    t.variantOf q name ty span = .ok (tag, payload) ↔ t.Names q name ty tag payload := by
  have ofEnum {e : String} : variantOf.enumVariant t name span e = .ok (tag, payload) ↔
      ∃ v, t.variant? (.enum e) name = some (tag, v) ∧ v.payload = payload := by
    unfold variantOf.enumVariant
    split
    · next tag' v hv => simp [hv]
    · next hv => simp [hv]
  constructor
  · intro h
    unfold variantOf at h
    split at h
    · split at h
      · next hok =>
        obtain ⟨hq, rfl⟩ := hok
        obtain rfl := Option.isNone_iff_eq_none.mp hq
        cases h
        exact .ok
      · split at h
        · next herr =>
          obtain ⟨hq, rfl⟩ := herr
          obtain rfl := Option.isNone_iff_eq_none.mp hq
          cases h
          exact .err
        · cases h
    · split at h
      · split at h
        · cases h
        · next hq =>
          obtain ⟨v, hv, rfl⟩ := ofEnum.mp h
          exact .enum (.inr (by rw [not_not.mp hq])) hv
      · obtain ⟨v, hv, rfl⟩ := ofEnum.mp h
        exact .enum (.inl rfl) hv
    · cases h
  · rintro (_ | _ | ⟨rfl | rfl, found⟩)
    · simp [variantOf]
    · simp [variantOf]
    · exact ofEnum.mpr ⟨_, found, rfl⟩
    · simp only [variantOf, ne_eq, not_true_eq_false, if_false]
      exact ofEnum.mpr ⟨_, found, rfl⟩

/-- A name means one variant. -/
theorem Names.unique {q : Option String} {name : String} {tag' : Nat}
    {payload payload' : Option Ty} (h : t.Names q name ty tag payload)
    (h' : t.Names q name ty tag' payload') : tag' = tag ∧ payload' = payload := by
  have hone := (@variantOf_eq_ok t q name ty .nowhere tag payload).mpr h
  have hother := (@variantOf_eq_ok t q name ty .nowhere tag' payload').mpr h'
  rw [hone] at hother
  cases hother
  exact ⟨rfl, rfl⟩

/-- **A checked pattern matches what the written one matches.** -/
theorem covers_of_pattern {id : Nat} : ∀ (p : Pattern) {ty : Ty} {q : Typed.Pattern} {d : Datum},
    t.pattern id p ty = .ok q → d.Has t ty → (q.covers d = true ↔ p.Matches t ty d)
  | ⟨.wildcard, _⟩, _, _, _, h, _ => by
    simp only [pattern, Except.ok.injEq] at h
    subst h
    exact iff_of_true rfl .wildcard
  | ⟨.binding _, _⟩, _, _, _, h, _ => by
    unfold pattern at h
    split at h
    · next tag v hv =>
      cases h
      rw [Typed.Pattern.covers_tag]
      constructor
      · rintro ⟨payload, rfl⟩
        exact .bare hv
      · intro hm
        cases hm with
        | binding free => simp [free] at hv
        | bare found =>
          obtain ⟨rfl, -⟩ := Prod.mk.inj (Option.some.inj (found.symm.trans hv))
          exact ⟨_, rfl⟩
    · next hv =>
      cases h
      exact iff_of_true rfl (.binding hv)
  | ⟨.int _, _⟩, _, _, _, h, hd => by
    unfold pattern at h
    split at h
    · split at h
      · cases h
        obtain ⟨m, rfl, -⟩ := Datum.has_int.mp hd
        simp only [Typed.Pattern.covers, decide_eq_true_eq]
        exact ⟨fun hn => hn ▸ .int, fun hm => by cases hm; rfl⟩
      · cases h
    · obtain ⟨rfl, rfl⟩ := literalPattern_eq_ok.mp h
      obtain ⟨x, rfl⟩ := Datum.has_float.mp hd
      exact ⟨.intAsFloat, fun hm => by cases hm; assumption⟩
  | ⟨.float _, _⟩, _, _, _, h, hd => by
    obtain ⟨rfl, rfl⟩ := literalPattern_eq_ok.mp h
    obtain ⟨x, rfl⟩ := Datum.has_float.mp hd
    exact ⟨.float, fun hm => by cases hm; assumption⟩
  | ⟨.bool _, _⟩, _, _, _, h, hd => by
    obtain ⟨rfl, rfl⟩ := literalPattern_eq_ok.mp h
    obtain ⟨c, rfl⟩ := Datum.has_bool.mp hd
    simp only [Typed.Pattern.covers, decide_eq_true_eq]
    exact ⟨fun hb => hb ▸ .bool, fun hm => by cases hm; rfl⟩
  | ⟨.str _, _⟩, _, _, _, h, hd => by
    obtain ⟨rfl, rfl⟩ := literalPattern_eq_ok.mp h
    obtain ⟨bs, rfl⟩ := Datum.has_str.mp hd
    simp only [Typed.Pattern.covers, decide_eq_true_eq]
    exact ⟨fun hs => hs ▸ .str, fun hm => by cases hm; rfl⟩
  | ⟨.variant q name none, span⟩, ty, _, d, h, hd => by
    simp only [pattern, except_bind_eq_ok, except_pure_eq_ok] at h
    obtain ⟨⟨tag, payload⟩, hv, rfl⟩ := h
    rw [variantOf_eq_ok] at hv
    rw [Typed.Pattern.covers_tag]
    constructor
    · rintro ⟨payload, rfl⟩
      exact .tag hv
    · intro hm
      cases hm with
      | tag named =>
        obtain ⟨rfl, -⟩ := hv.unique named
        exact ⟨_, rfl⟩
  | ⟨.variant _ _ (some inner), _⟩, _, _, d, h, hd => by
    simp only [pattern, except_bind_eq_ok] at h
    obtain ⟨⟨tag, payload⟩, hv, h⟩ := h
    split at h
    · next payloadTy heq =>
      obtain rfl : payload = some payloadTy := heq
      simp only [except_bind_eq_ok, except_pure_eq_ok] at h
      obtain ⟨p, hp, rfl⟩ := h
      have hfound := payload?_of_variantOf hv
      rw [variantOf_eq_ok] at hv
      rw [Typed.Pattern.covers_variant]
      constructor
      · rintro ⟨d, rfl, hc⟩
        obtain ⟨_, ⟨⟩, hd⟩ := (Datum.has_variant hfound).mp hd
        exact .variant hv ((covers_of_pattern inner hp hd).mp hc)
      · intro hm
        cases hm with
        | variant named hm =>
          obtain ⟨rfl, ⟨⟩⟩ := hv.unique named
          obtain ⟨_, ⟨⟩, hd⟩ := (Datum.has_variant hfound).mp hd
          exact ⟨_, rfl, (covers_of_pattern inner hp hd).mpr hm⟩
    · cases h

/-! ## What is missing -/

/-- The patterns for what a variant carries. -/
def payloadPatterns (ps : List Typed.Pattern) (tag : Nat) : List Typed.Pattern :=
  (ps.filterMap (·.ofTag? tag)).filterMap (·.map (·.2))

theorem mem_filterMap_ofTag? {payload : Option (Ty × Typed.Pattern)} :
    payload ∈ ps.filterMap (·.ofTag? tag) ↔ Typed.Pattern.variant tag payload ∈ ps := by
  rw [List.mem_filterMap]
  constructor
  · rintro ⟨p, hp, hof⟩
    cases p with
    | variant tag' inner =>
      simp only [Typed.Pattern.ofTag?] at hof
      split at hof
      · next htag =>
        cases hof
        exact htag ▸ hp
      · cases hof
    | _ => cases hof
  · exact fun hp => ⟨_, hp, by simp [Typed.Pattern.ofTag?]⟩

theorem mem_payloadPatterns {q : Typed.Pattern} :
    q ∈ payloadPatterns ps tag ↔ ∃ ty, Typed.Pattern.variant tag (some (ty, q)) ∈ ps := by
  simp only [payloadPatterns, List.mem_filterMap (f := fun o => Option.map _ o),
    mem_filterMap_ofTag?, Option.map_eq_some_iff]
  constructor
  · rintro ⟨_, hp, ⟨ty, _⟩, rfl, rfl⟩
    exact ⟨ty, hp⟩
  · rintro ⟨ty, hp⟩
    exact ⟨_, hp, (ty, q), rfl, rfl⟩

/-- Nothing of a variant is missing: some pattern names it, and one of these asks for nothing more or
nothing is missing of what the variant carries. -/
def VariantDone (rest : List Typed.Pattern → Ty → List String) (ps : List Typed.Pattern) (tag : Nat)
    (payload : Option Ty) : Prop :=
  .variant tag none ∈ ps ∨
    (∃ inner, .variant tag inner ∈ ps) ∧ ∀ ty, payload = some ty → rest (payloadPatterns ps tag) ty = []

theorem missingVariant_eq_nil {payload : Option Ty} {unnamed : String} :
    missingVariant rest ps tag payload unnamed = [] ↔ VariantDone rest ps tag payload := by
  have hbare : (ps.filterMap (·.ofTag? tag)).any Option.isNone = true ↔ Typed.Pattern.variant tag none ∈ ps := by
    rw [← mem_filterMap_ofTag?, List.any_eq_true]
    exact ⟨fun ⟨_, hx, hn⟩ => Option.isNone_iff_eq_none.mp hn ▸ hx, fun h => ⟨_, h, rfl⟩⟩
  have hnamed : (ps.filterMap (·.ofTag? tag)).isEmpty = true ↔ ¬∃ inner, Typed.Pattern.variant tag inner ∈ ps := by
    simp only [← mem_filterMap_ofTag?, List.isEmpty_iff, List.eq_nil_iff_forall_not_mem, not_exists]
  simp only [missingVariant, VariantDone]
  split
  · next h => simp [hbare.mp h]
  · next h =>
    have hnot := mt hbare.mpr h
    split
    · next h => simp [hnot, hnamed.mp h]
    · next h =>
      have hsome := not_not.mp (mt hnamed.mpr h)
      cases payload with
      | none => simp [hnot, hsome]
      | some ty => simp [hnot, hsome, payloadPatterns]

/-- **Of variants nothing is missing if nothing of any variant is.** -/
theorem missing_sum_eq_nil {fuel : Nat} (hty : ty.IsSum) (hps : ps.any (·.isCatchAll) = false) :
    t.missing (fuel + 1) ps ty = [] ↔ ∀ tag payload, t.payload? ty tag = some payload →
        VariantDone (t.missing fuel) ps tag payload := by
  rcases hty with ⟨ok, err, rfl⟩ | ⟨e, rfl⟩
  · simp only [missing, hps, Bool.false_eq_true, if_false, List.append_eq_nil_iff, List.map_eq_nil_iff,
      missingVariant_eq_nil, payload?]
    constructor
    · rintro ⟨hok, herr⟩ tag payload htag
      rcases tag with _ | _ | tag <;> cases htag
      · exact hok
      · exact herr
    · exact fun h => ⟨h 0 _ rfl, h 1 _ rfl⟩
  · simp only [missing, hps, Bool.false_eq_true, if_false, payload?]
    cases t.enum? e with
    | none => simp
    | some shape =>
      simp only [List.flatMap_eq_nil_iff, List.map_eq_nil_iff, missingVariant_eq_nil, Option.bind_some,
        Option.map_eq_some_iff, Prod.forall, List.mk_mem_zipIdx_iff_getElem?]
      constructor
      · rintro h tag _ ⟨v, hv, rfl⟩
        exact h v tag hv
      · exact fun h v tag hv => h tag _ ⟨v, hv, rfl⟩

theorem missing_bool_eq_nil {fuel : Nat} (hps : ps.any (·.isCatchAll) = false) :
    t.missing (fuel + 1) ps .bool = [] ↔ ∀ b, Typed.Pattern.bool b ∈ ps := by
  simp only [missing, hps, Bool.false_eq_true, if_false, List.map_eq_nil_iff, List.filter_eq_nil_iff,
    Bool.not_eq_true', Bool.not_eq_false, List.any_eq_true]
  constructor
  · intro h b
    obtain ⟨p, hp, hc⟩ := h b (by cases b <;> simp)
    cases p with
    | bool c => exact of_decide_eq_true hc ▸ hp
    | _ => cases hc
  · exact fun h b _ => ⟨_, h b, by simp⟩

/-- Patterns for values of a type, each with a variable number of its own. -/
def AllFit (t : SymbolTable) (ps : List Typed.Pattern) (ty : Ty) : Prop :=
  ∀ p ∈ ps, ∃ id, p.Fits t id ty

theorem AllFit.payload {payload : Ty} (h : AllFit t ps ty)
    (hfound : t.payload? ty tag = some (some payload)) : AllFit t (payloadPatterns ps tag) payload := by
  intro q hq
  obtain ⟨qTy, hq⟩ := mem_payloadPatterns.mp hq
  obtain ⟨id, hfits⟩ := h _ hq
  cases hfits with
  | variant found inner =>
    rw [hfound] at found
    cases found
    exact ⟨id, inner⟩

/-! ## Where nothing is missing -/

theorem covered_of_variantDone {payload : Option Ty} (hps : AllFit t ps ty) (hfound : t.payload? ty tag = some payload)
    (hrest : ∀ payloadTy d, payload = some payloadTy → d.Has t payloadTy →
      rest (payloadPatterns ps tag) payloadTy = [] → ∃ p ∈ payloadPatterns ps tag, p.covers d = true)
    (hdone : VariantDone rest ps tag payload) (hd : (Datum.variant tag inner).Has t ty) :
    ∃ p ∈ ps, p.covers (.variant tag inner) = true := by
  rcases hdone with hbare | ⟨⟨_ | ⟨qTy, q⟩, hmem⟩, hpayload⟩
  · exact ⟨_, hbare, Typed.Pattern.covers_tag.mpr ⟨_, rfl⟩⟩
  · exact ⟨_, hmem, Typed.Pattern.covers_tag.mpr ⟨_, rfl⟩⟩
  · -- the variant carries something, as a pattern for it was accepted
    obtain ⟨id, hfits⟩ := hps _ hmem
    cases hfits with
    | variant found _ =>
      obtain rfl : payload = some qTy := Option.some.inj (hfound.symm.trans found)
      obtain ⟨d, rfl, hinner⟩ := (Datum.has_variant found).mp hd
      obtain ⟨p, hp, hcovers⟩ := hrest qTy d rfl hinner (hpayload qTy rfl)
      obtain ⟨pTy, hp⟩ := mem_payloadPatterns.mp hp
      exact ⟨_, hp, Typed.Pattern.covers_variant.mpr ⟨d, rfl, hcovers⟩⟩

/-- **Where nothing is missing, every value is matched.** -/
theorem covered_of_missing {d : Datum} : ∀ (fuel : Nat), AllFit t ps ty → t.missing fuel ps ty = [] → d.Has t ty →
      ∃ p ∈ ps, p.covers d = true := by
  intro fuel
  induction fuel generalizing ps ty d with
  | zero =>
    intro _ h _
    cases h
  | succ fuel ih =>
    intro hps hmissing hd
    by_cases hany : ps.any (·.isCatchAll) = true
    · obtain ⟨p, hp, hall⟩ := List.any_eq_true.mp hany
      exact ⟨p, hp, Typed.Pattern.covers_of_isCatchAll hall d⟩
    · have hany : ps.any (·.isCatchAll) = false := Bool.eq_false_iff.mpr hany
      have ofSum (hty : ty.IsSum) : ∃ p ∈ ps, p.covers d = true := by
        have hdone := (missing_sum_eq_nil hty hany).mp hmissing
        obtain ⟨tag, inner, payload, rfl, hfound⟩ := hd.variant_of_isSum hty
        refine covered_of_variantDone hps hfound (fun payloadTy d hp hd hrest => ?_) (hdone tag payload hfound) hd
        exact ih (hps.payload (hp ▸ hfound)) hrest hd
      cases ty with
      | result ok err => exact ofSum (.inl ⟨ok, err, rfl⟩)
      | enum e => exact ofSum (.inr ⟨e, rfl⟩)
      | bool =>
        obtain ⟨b, rfl⟩ := Datum.has_bool.mp hd
        exact ⟨_, (missing_bool_eq_nil hany).mp hmissing b, by simp [Typed.Pattern.covers]⟩
      | _ => simp [missing, hany] at hmissing

/-! ## Where something is missing -/

/-- A type is part of another one if values of the other carry values of it. -/
def Carries (t : SymbolTable) (ty payload : Ty) : Prop :=
  ∃ tag, t.payload? ty tag = some (some payload)

/-- A type built only from truth values, strings, results and enums, all of which have values. -/
def Discrete (t : SymbolTable) (ty : Ty) : Prop :=
  ∀ part, Relation.ReflTransGen t.Carries ty part → (part = .bool ∨ part = .str ∨ part.IsSum) ∧ ∃ d, Datum.Has t d part

theorem Discrete.payload {payload : Ty} (h : t.Discrete ty)
    (hfound : t.payload? ty tag = some (some payload)) : t.Discrete payload := fun part hpart =>
  h part (.head ⟨tag, hfound⟩ hpart)

theorem Discrete.inhabited (h : t.Discrete ty) : ∃ d, Datum.Has t d ty :=
  (h ty .refl).2

/-- Finitely many patterns do not name every string: there is a longer one. -/
theorem exists_str_not_mem (ps : List Typed.Pattern) :
    ∃ bs : List UInt8, ∀ s, Typed.Pattern.str s ∈ ps → bs ≠ Utf8.encode s := by
  obtain ⟨n, hn⟩ : ∃ n, ∀ s, Typed.Pattern.str s ∈ ps → (Utf8.encode s).length < n := by
    induction ps with
    | nil => exact ⟨0, nofun⟩
    | cons p ps ih =>
      obtain ⟨n, hn⟩ := ih
      cases p with
      | str s =>
        refine ⟨max n ((Utf8.encode s).length + 1), fun s' hs' => ?_⟩
        rcases List.mem_cons.mp hs' with heq | hs'
        · cases heq
          omega
        · have := hn s' hs'
          omega
      | _ => exact ⟨n, fun s hs => hn s ((List.mem_cons.mp hs).resolve_left nofun)⟩
  refine ⟨List.replicate n 0, fun s hs heq => ?_⟩
  have hlt := hn s hs
  rw [← heq, List.length_replicate] at hlt
  exact Nat.lt_irrefl n hlt

/-- A pattern that is not for every value says nothing about a variant that it does not name. -/
theorem covers_variant_iff {p : Typed.Pattern} (hp : p.isCatchAll = false) (h : p.covers (.variant tag inner) = true) :
    p = .variant tag none ∨ ∃ ty q d, p = .variant tag (some (ty, q)) ∧ inner = some d ∧ q.covers d = true := by
  cases p with
  | wildcard | bind => cases hp
  | variant tag' payload =>
    rcases payload with _ | ⟨ty, q⟩
    · obtain ⟨_, ⟨⟩⟩ := Typed.Pattern.covers_tag.mp h
      exact .inl rfl
    · obtain ⟨d, ⟨⟩, hd⟩ := Typed.Pattern.covers_variant.mp h
      exact .inr ⟨ty, q, d, rfl, rfl, hd⟩
  | _ => simp [Typed.Pattern.covers] at h

/-- A variant of which something is missing has a value that no pattern matches. -/
theorem exists_unmatched_variant {payload : Option Ty} (hty : t.Discrete ty)
    (hall : ps.any (·.isCatchAll) = false) (hfound : t.payload? ty tag = some payload)
    (hrest : ∀ payloadTy, payload = some payloadTy → rest (payloadPatterns ps tag) payloadTy ≠ [] →
      ∃ d, Datum.Has t d payloadTy ∧ ∀ p ∈ payloadPatterns ps tag, p.covers d = false)
    (hdone : ¬VariantDone rest ps tag payload) : ∃ d, Datum.Has t d ty ∧ ∀ p ∈ ps, p.covers d = false := by
  have hbare : .variant tag none ∉ ps := fun h => hdone (.inl h)
  have hnone (p) (hp : p ∈ ps) : p.isCatchAll = false := by
    simpa using List.any_eq_false.mp hall p hp
  cases payload with
  | none =>
    -- only the bare name could match, as the variant carries nothing
    refine ⟨.variant tag none, .tag hfound, fun p hp => Bool.eq_false_iff.mpr fun hc => ?_⟩
    rcases covers_variant_iff (hnone p hp) hc with rfl | ⟨_, _, _, _, ⟨⟩, _⟩
    exact hbare hp
  | some payloadTy =>
    have hinner : ∃ d, Datum.Has t d payloadTy ∧ ∀ p ∈ payloadPatterns ps tag, p.covers d = false := by
      by_cases hmissing : rest (payloadPatterns ps tag) payloadTy = []
      · -- no pattern names the variant, so any value of what it carries will do
        have hunnamed : ¬∃ inner, .variant tag inner ∈ ps := fun hnamed =>
          hdone (.inr ⟨hnamed, fun _ h => by cases h; exact hmissing⟩)
        obtain ⟨d, hd⟩ := (hty.payload hfound).inhabited
        refine ⟨d, hd, fun p hp => ?_⟩
        obtain ⟨pTy, hp⟩ := mem_payloadPatterns.mp hp
        exact absurd ⟨_, hp⟩ hunnamed
      · exact hrest payloadTy rfl hmissing
    obtain ⟨d, hd, hnot⟩ := hinner
    refine ⟨.variant tag (some d), .variant hfound hd, fun p hp => Bool.eq_false_iff.mpr fun hc => ?_⟩
    rcases covers_variant_iff (hnone p hp) hc with rfl | ⟨pTy, q, _, rfl, ⟨⟩, hq⟩
    · exact hbare hp
    · rw [hnot q (mem_payloadPatterns.mpr ⟨pTy, hp⟩)] at hq
      cases hq

/-- **Where something is missing, some value is not matched.** -/
theorem exists_unmatched : ∀ (fuel : Nat), t.Discrete ty → (∀ p ∈ ps, p.depth < fuel) → t.missing fuel ps ty ≠ [] →
      ∃ d, Datum.Has t d ty ∧ ∀ p ∈ ps, p.covers d = false := by
  intro fuel
  induction fuel generalizing ps ty with
  | zero =>
    intro hty hdepth _
    obtain ⟨d, hd⟩ := hty.inhabited
    exact ⟨d, hd, fun p hp => absurd (hdepth p hp) (Nat.not_lt_zero _)⟩
  | succ fuel ih =>
    intro hty hdepth hmissing
    have hall : ps.any (·.isCatchAll) = false := by
      refine Bool.eq_false_iff.mpr fun hany => hmissing ?_
      unfold missing
      rw [if_pos hany]
    rcases (hty ty .refl).1 with rfl | rfl | hsum
    · obtain ⟨b, hb⟩ := not_forall.mp (mt (missing_bool_eq_nil hall).mpr hmissing)
      refine ⟨.bool b, .bool, fun p hp => ?_⟩
      have hnot := List.any_eq_false.mp hall p hp
      cases p with
      | bool c =>
        simp only [Typed.Pattern.covers, decide_eq_false_iff_not]
        rintro rfl
        exact hb hp
      | wildcard | bind => simp [Typed.Pattern.isCatchAll] at hnot
      | _ => simp [Typed.Pattern.covers]
    · obtain ⟨bs, hbs⟩ := exists_str_not_mem ps
      refine ⟨.str bs, .str, fun p hp => ?_⟩
      have hnot := List.any_eq_false.mp hall p hp
      cases p with
      | str s => simpa [Typed.Pattern.covers] using hbs s hp
      | wildcard | bind => simp [Typed.Pattern.isCatchAll] at hnot
      | _ => simp [Typed.Pattern.covers]
    · obtain ⟨tag, hrest⟩ := not_forall.mp (mt (missing_sum_eq_nil hsum hall).mpr hmissing)
      obtain ⟨payload, hrest⟩ := not_forall.mp hrest
      obtain ⟨hfound, hdone⟩ := Classical.not_imp.mp hrest
      refine exists_unmatched_variant hty hall hfound (fun payloadTy hp hne => ?_) hdone
      refine ih (hty.payload (hp ▸ hfound)) (fun q hq => ?_) hne
      -- a pattern inside is less deep
      obtain ⟨qTy, hq⟩ := mem_payloadPatterns.mp hq
      have hlt := hdepth _ hq
      simp only [Typed.Pattern.depth] at hlt
      omega

/-! ## Whole matches -/

theorem le_foldl_max {ns : List Nat} {n m : Nat} (h : n = m ∨ n ∈ ns) : n ≤ ns.foldl max m := by
  induction ns generalizing n m with
  | nil => simpa using Nat.le_of_eq (h.resolve_right List.not_mem_nil)
  | cons k ns ih =>
    rw [List.foldl_cons]
    rcases h with rfl | h
    · exact Nat.le_trans (Nat.le_max_left n k) (ih (.inl rfl))
    · rcases List.mem_cons.mp h with rfl | h
      · exact Nat.le_trans (Nat.le_max_right m n) (ih (.inl rfl))
      · exact ih (.inr h)

/-- What the answer on a whole match says: nothing is missing with enough fuel. -/
theorem requireExhaustive_cases {ty : Ty} {qs : List Typed.Pattern} {span : Span} :
    ∃ fuel, (∀ q ∈ qs, q.depth < fuel) ∧ (t.requireExhaustive qs ty span = .ok () ↔ t.missing fuel qs ty = []) := by
  refine ⟨(qs.map (·.depth)).foldl max 0 + 1, fun q hq => ?_, ?_⟩
  · exact Nat.lt_succ_of_le (le_foldl_max (.inr (List.mem_map_of_mem hq)))
  · have hok (missed : List String) : (if missed.isEmpty then .ok () else .error ⟨.nonExhaustive missed, span⟩ :
          Except TypeError Unit) = .ok () ↔ missed = [] := by
      cases missed <;> simp
    unfold requireExhaustive
    cases ty with
    | enum | result | bool => exact hok _
    | _ =>
      simp only [hok, missing]
      split <;> simp

/-- **The answer on a whole match is exact.**  The arms are given by their patterns, each as it is written
and as it is checked.  A match that is accepted has an arm for every value.  A match that is refused
misses a value, if the matched type is built from truth values, strings, results and enums that all have
values. -/
theorem requireExhaustive_exact {ty : Ty} {arms : List (Pattern × Typed.Pattern)}
    (harms : ∀ a ∈ arms, ∃ id, t.pattern id a.1 ty = .ok a.2) (span : Span) :
    (t.requireExhaustive (arms.map (·.2)) ty span = .ok () → ∀ d : Datum, d.Has t ty → ∃ a ∈ arms, a.1.Matches t ty d) ∧
    (t.Discrete ty → ∀ missed, t.requireExhaustive (arms.map (·.2)) ty span = .error ⟨.nonExhaustive missed, span⟩ →
      ∃ d : Datum, d.Has t ty ∧ ∀ a ∈ arms, ¬a.1.Matches t ty d) := by
  obtain ⟨fuel, hdepth, hanswer⟩ := @requireExhaustive_cases t ty (arms.map (·.2)) span
  constructor
  · intro hok d hd
    have hfit : AllFit t (arms.map (·.2)) ty := fun q hq => by
      obtain ⟨a, ha, rfl⟩ := List.mem_map.mp hq
      obtain ⟨id, hid⟩ := harms a ha
      exact ⟨id, pattern_fits a.1 hid⟩
    obtain ⟨q, hq, hcovers⟩ := covered_of_missing fuel hfit (hanswer.mp hok) hd
    obtain ⟨a, ha, rfl⟩ := List.mem_map.mp hq
    obtain ⟨id, hid⟩ := harms a ha
    exact ⟨a, ha, (covers_of_pattern a.1 hid hd).mp hcovers⟩
  · intro hty missed herror
    have hmissing : t.missing fuel (arms.map (·.2)) ty ≠ [] := fun hnil => by
      rw [hanswer.mpr hnil] at herror
      cases herror
    obtain ⟨d, hd, hnot⟩ := exists_unmatched fuel hty hdepth hmissing
    refine ⟨d, hd, fun a ha hm => ?_⟩
    obtain ⟨id, hid⟩ := harms a ha
    rw [← covers_of_pattern a.1 hid hd, hnot a.2 (List.mem_map_of_mem ha)] at hm
    cases hm

/-! ### A nested match -/

/-- A table with the enum `Wish`, whose variants are `Some(bool)` and `Never`. -/
def wishes : SymbolTable :=
  ⟨[], [], [⟨"Wish", [⟨"Some", some .bool⟩, ⟨"Never", none⟩]⟩]⟩

/-- The type `Result<Wish, string>`. -/
def wishResult : Ty := .result (.enum "Wish") .str

/-- The patterns `Ok(Some(true))`, `Ok(Never)` and `Err(e)`, as they are written and as they are checked. -/
def wishArms : List (Pattern × Typed.Pattern) :=
  let pattern (form : PatternForm) : Pattern := ⟨form, .nowhere⟩
  [(pattern (.variant none "Ok" (some (pattern (.variant none "Some" (some (pattern (.bool true))))))),
      .variant 0 (some (.enum "Wish", .variant 0 (some (.bool, .bool true))))),
    (pattern (.variant none "Ok" (some (pattern (.binding "Never")))),
      .variant 0 (some (.enum "Wish", .variant 1 none))),
    (pattern (.variant none "Err" (some (pattern (.binding "e")))),
      .variant 1 (some (.str, .bind ⟨0, "e", .str, false⟩)))]

theorem carries_wishResult {part : Ty} (h : wishes.Carries ty part)
    (hty : ty ∈ [wishResult, .enum "Wish", .str, .bool]) : part ∈ [.enum "Wish", .str, .bool] := by
  obtain ⟨tag, hfound⟩ := h
  simp only [List.mem_cons, List.not_mem_nil, or_false] at hty
  rcases hty with rfl | rfl | rfl | rfl
  · rcases tag with _ | _ | tag <;> cases hfound <;> simp
  · rcases tag with _ | _ | tag <;> cases hfound
    simp
  · cases hfound
  · cases hfound

theorem discrete_wishResult : wishes.Discrete wishResult := by
  intro part hpart
  have hmem : part ∈ [wishResult, .enum "Wish", .str, .bool] := by
    induction hpart with
    | refl => simp
    | tail _ hstep ih => exact List.mem_cons_of_mem _ (carries_wishResult hstep ih)
  have hwish : Datum.Has wishes (.variant 1 none) (.enum "Wish") := .tag rfl
  simp only [List.mem_cons, List.not_mem_nil, or_false] at hmem
  rcases hmem with rfl | rfl | rfl | rfl
  · exact ⟨.inr (.inr (.inl ⟨_, _, rfl⟩)), .variant 0 (some (.variant 1 none)), .variant rfl hwish⟩
  · exact ⟨.inr (.inr (.inr ⟨_, rfl⟩)), _, hwish⟩
  · exact ⟨.inr (.inl rfl), .str [], .str⟩
  · exact ⟨.inl rfl, .bool true, .bool⟩

theorem pattern_wishArms : ∀ a ∈ wishArms, ∃ id, wishes.pattern id a.1 wishResult = .ok a.2 := by
  intro a ha
  simp only [wishArms, List.mem_cons, List.not_mem_nil, or_false] at ha
  rcases ha with rfl | rfl | rfl <;> exact ⟨0, rfl⟩

/-- The three arms miss `Ok(Some(false))`; with a last arm for everything nothing is missed. -/
theorem requireExhaustive_exact_wishes : (wishes.requireExhaustive (wishArms.map (·.2)) wishResult .nowhere =
        .error ⟨.nonExhaustive ["Ok(Wish::Some(false))"], .nowhere⟩ ∧
      ∃ d : Datum, d.Has wishes wishResult ∧ ∀ a ∈ wishArms, ¬a.1.Matches wishes wishResult d) ∧
    ∃ arms : List (Pattern × Typed.Pattern), (∀ a ∈ wishArms, a ∈ arms) ∧
      wishes.requireExhaustive (arms.map (·.2)) wishResult .nowhere = .ok () ∧
      ∀ d : Datum, d.Has wishes wishResult → ∃ a ∈ arms, a.1.Matches wishes wishResult d := by
  have hmissed : wishes.requireExhaustive (wishArms.map (·.2)) wishResult .nowhere =
      .error ⟨.nonExhaustive ["Ok(Wish::Some(false))"], .nowhere⟩ := by rfl
  refine ⟨⟨hmissed, (requireExhaustive_exact pattern_wishArms .nowhere).2 discrete_wishResult _ hmissed⟩,
    wishArms ++ [(⟨.wildcard, .nowhere⟩, .wildcard)], fun _ ha => List.mem_append_left _ ha, rfl, ?_⟩
  refine (requireExhaustive_exact (fun a ha => ?_) .nowhere).1 rfl
  rcases List.mem_append.mp ha with ha | ha
  · exact pattern_wishArms a ha
  · obtain rfl := List.mem_singleton.mp ha
    exact ⟨0, rfl⟩

end SymbolTable

end StackScript
