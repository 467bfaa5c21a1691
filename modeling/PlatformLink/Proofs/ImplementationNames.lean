import PlatformLink.Proofs.ForwardingSpec
import PlatformLink.Proofs.PathText

/-! # Names of implementation classes

The name of an implementation class is read back part by part: the parts of its owner's package
without `$`, those of the segment for the platform, and the owner's last part with `Impl` at its end
(`Forwarding.pieces_implementationName`). So two owners have one implementation class just when they
differ in `$` alone, and the name is as well formed as the owner's package without `$` and the
configured segment are.
-/

namespace PlatformLink
set_option autoImplicit false

namespace Forwarding

open PlatformLink.Path (pieces)

/-- A name without its `$`. -/
def flattened (name : String) : String := String.ofList (name.toList.filter (· != '$'))

section Names

variable {owner package simple : String}

@[simp] theorem toList_flattened (name : String) :
    (flattened name).toList = name.toList.filter (· != '$') :=
  String.toList_ofList

theorem flattened_append (front back : String) :
    flattened (front ++ back) = flattened front ++ flattened back := by
  apply String.toList_injective
  simp

theorem flattened_intercalate (texts : List String) :
    flattened ("/".intercalate texts) = "/".intercalate (texts.map flattened) := by
  induction texts with
  | nil => rfl
  | cons text texts ih =>
    cases texts with
    | nil => simp
    | cons next texts =>
      rw [String.intercalate_cons_cons, flattened_append, flattened_append, ih, List.map_cons,
        List.map_cons, List.map_cons, String.intercalate_cons_cons]
      rfl

theorem slashless_flattened {text : String} (h : '/' ∉ text.toList) :
    '/' ∉ (flattened text).toList := by
  simpa using h

theorem pieces_flattened (name : String) : pieces (flattened name) = (pieces name).map flattened := by
  have hne : (pieces name).map flattened ≠ [] := by
    simpa using Path.pieces_ne_nil name
  conv => lhs; rw [← Path.intercalate_pieces name, flattened_intercalate]
  apply Path.pieces_intercalate hne
  intro text htext
  obtain ⟨piece, hpiece, rfl⟩ := List.mem_map.1 htext
  exact slashless_flattened (Path.slashless_of_mem_pieces hpiece)

/-! ## The parts of the name -/

theorem slashless_append_impl (h : '/' ∉ simple.toList) :
    ∀ c ∈ (simple ++ "Impl").toList.reverse, (c != '/') = true := by
  intro c hc
  rw [List.mem_reverse, String.toList_append, List.mem_append] at hc
  rw [bne_iff_ne]
  intro hslash
  subst hslash
  exact hc.elim h (by decide)

theorem implementationName_of_slashless (h : '/' ∉ (flattened owner).toList) (segment : String) :
    implementationName owner segment = segment ++ "/" ++ (flattened owner ++ "Impl") := by
  have hbackwards : ((owner.toList.filter (· != '$')) ++ "Impl".toList).reverse =
      (flattened owner ++ "Impl").toList.reverse := by
    rw [String.toList_append, toList_flattened]
  have hall := slashless_append_impl h
  unfold implementationName
  simp only [hbackwards]
  rw [List.dropWhile_eq_nil_iff.2 hall, List.takeWhile_eq_self_iff.2 hall, List.reverse_reverse,
    String.ofList_toList]

theorem implementationName_of_package (h : flattened owner = package ++ "/" ++ simple)
    (hsimple : '/' ∉ simple.toList) (segment : String) :
    implementationName owner segment =
      package ++ "/" ++ segment ++ "/" ++ (simple ++ "Impl") := by
  have hbackwards : ((owner.toList.filter (· != '$')) ++ "Impl".toList).reverse =
      (simple ++ "Impl").toList.reverse ++ '/' :: package.toList.reverse := by
    rw [← toList_flattened, h]
    simp
  have hall := slashless_append_impl hsimple
  unfold implementationName
  simp only [hbackwards]
  rw [List.takeWhile_append_of_pos hall, List.dropWhile_append_of_pos hall,
    List.takeWhile_cons_of_neg (by decide), List.dropWhile_cons_of_neg (by decide)]
  simp only [List.append_nil, List.reverse_reverse, String.ofList_toList]

/-- The parts of the package without `$`, those of the segment, and the last part of the owner
without `$` and with `Impl`. -/
theorem pieces_implementationName {front : List String} {last : String}
    (h : pieces owner = front ++ [last]) (segment : String) :
    pieces (implementationName owner segment) =
      front.map flattened ++ pieces segment ++ [flattened last ++ "Impl"] := by
  have hlast : '/' ∉ (flattened last).toList :=
    slashless_flattened (Path.slashless_of_mem_pieces (by rw [h]; simp))
  have himpl : '/' ∉ (flattened last ++ "Impl").toList := by
    rw [String.toList_append, List.mem_append, not_or]
    exact ⟨hlast, by decide⟩
  have hflattened : flattened owner = "/".intercalate (front.map flattened ++ [flattened last]) := by
    rw [← List.map_singleton, ← List.map_append, ← h, ← flattened_intercalate,
      Path.intercalate_pieces]
  by_cases hfront : front = []
  · subst hfront
    have hsimple : flattened owner = flattened last := by
      rw [hflattened, List.map_nil, List.nil_append, String.intercalate_singleton]
    rw [implementationName_of_slashless (by rwa [hsimple]), Path.pieces_append, hsimple,
      Path.pieces_of_slashless himpl, List.map_nil, List.nil_append]
  · have hne : front.map flattened ≠ [] := by simpa using hfront
    have hpackage : flattened owner =
        "/".intercalate (front.map flattened) ++ "/" ++ flattened last := by
      rw [hflattened, String.intercalate_append_of_ne_nil hne (by simp),
        String.intercalate_singleton]
    have hpieces : pieces ("/".intercalate (front.map flattened)) = front.map flattened := by
      apply Path.pieces_intercalate hne
      intro text htext
      obtain ⟨piece, hpiece, rfl⟩ := List.mem_map.1 htext
      exact slashless_flattened (Path.slashless_of_mem_pieces (by rw [h]; simp [hpiece]))
    rw [implementationName_of_package hpackage hlast, Path.pieces_append, Path.pieces_append,
      Path.pieces_of_slashless himpl, hpieces]

end Names

/-! ## Owners with one implementation class -/

/-- Two owners have one implementation class just when they are equal without `$`, whatever the
segment between their packages and their last parts is. -/
theorem implementationName_eq_iff (segment owner owner' : String) :
    (implementationName owner segment = implementationName owner' segment ↔
      flattened owner = flattened owner') ∧
    ∃ package simple, pieces owner = package ++ [simple] ∧
      pieces (implementationName owner segment) =
        package.map flattened ++ pieces segment ++ [flattened simple ++ "Impl"] := by
  obtain ⟨front, last, howner⟩ := Path.exists_pieces_eq_concat owner
  obtain ⟨front', last', howner'⟩ := Path.exists_pieces_eq_concat owner'
  have hname := pieces_implementationName howner segment
  have hname' := pieces_implementationName howner' segment
  refine ⟨?_, front, last, howner, hname⟩
  constructor
  · intro h
    rw [← h, hname] at hname'
    -- the last parts go off at the end, and the segment behind the packages
    obtain ⟨hfronts, hlasts⟩ := List.append_inj' hname' rfl
    rw [List.append_cancel_right_eq] at hfronts
    rw [List.cons.injEq, String.append_left_inj] at hlasts
    apply Path.pieces_injective
    rw [pieces_flattened, pieces_flattened, howner, howner', List.map_append, List.map_append,
      hfronts, List.map_singleton, List.map_singleton, hlasts.1]
  · intro h
    have hpieces := congrArg pieces h
    rw [pieces_flattened, pieces_flattened, howner, howner', List.map_append,
      List.map_append] at hpieces
    obtain ⟨hfronts, hlasts⟩ := List.append_inj' hpieces rfl
    rw [List.map_singleton, List.map_singleton, List.cons.injEq] at hlasts
    apply Path.pieces_injective
    rw [hname, hname', hfronts, hlasts.1]

/-! ## Well-formed names -/

/-- A text that can stand between the slashes of the name of a class. -/
structure IsNamePart (text : String) : Prop where
  ne_empty : text ≠ ""
  clean : ∀ c ∈ text.toList, c ≠ '.' ∧ c ≠ ';' ∧ c ≠ '['

theorem isNamePart_iff {text : String} : IsNamePart text ↔
    text ≠ "" ∧ text.toList.all (fun c => c ≠ '.' ∧ c ≠ ';' ∧ c ≠ '[') = true := by
  simp only [List.all_eq_true, decide_eq_true_eq]
  exact ⟨fun h => ⟨h.ne_empty, h.clean⟩, fun h => ⟨h.1, h.2⟩⟩

instance (text : String) : Decidable (IsNamePart text) :=
  decidable_of_iff _ isNamePart_iff.symm

def IsClassName (name : String) : Prop := ∀ part ∈ pieces name, IsNamePart part

instance (name : String) : Decidable (IsClassName name) :=
  inferInstanceAs (Decidable (∀ part ∈ pieces name, IsNamePart part))

theorem IsNamePart.flattened_iff {part : String} (h : IsNamePart part) :
    IsNamePart (flattened part) ↔ ∃ c ∈ part.toList, c ≠ '$' := by
  constructor
  · intro hflattened
    have hne : part.toList.filter (· != '$') ≠ [] := by
      intro hnil
      rw [← toList_flattened, String.toList_eq_nil_iff] at hnil
      exact hflattened.ne_empty hnil
    obtain ⟨c, hc⟩ := List.exists_mem_of_ne_nil _ hne
    rw [List.mem_filter, bne_iff_ne] at hc
    exact ⟨c, hc⟩
  · intro h
    obtain ⟨c, hc, hdollar⟩ := h
    have hmem : c ∈ (flattened part).toList := by
      rw [toList_flattened, List.mem_filter]
      exact ⟨hc, by simpa using hdollar⟩
    refine ⟨?_, fun c' hc' => ?_⟩
    · intro hempty
      rw [hempty] at hmem
      cases hmem
    · rw [toList_flattened, List.mem_filter] at hc'
      exact h.clean c' hc'.1

theorem isNamePart_impl : IsNamePart "Impl" := by
  decide

theorem IsNamePart.flattened_impl {part : String} (h : IsNamePart part) :
    IsNamePart (flattened part ++ "Impl") := by
  refine ⟨?_, fun c hc => ?_⟩
  · intro hempty
    exact isNamePart_impl.ne_empty (String.append_eq_empty_iff.1 hempty).2
  · rw [String.toList_append, toList_flattened, List.mem_append, List.mem_filter] at hc
    obtain hc | hc := hc
    · exact h.clean c hc.1
    · exact isNamePart_impl.clean c hc

/-- The text that is configured for the segment: the supplied one, that of the properties, or the
name of the platform. -/
def configured? (p : Preferences) (s : Settings) : Option String :=
  p.platformPackage.or <| (s.properties.get? Key.platformPackage).or <|
    s.properties.get? Key.platformName

/-- The segment is what is configured, but for `quilt`. -/
theorem exists_configured {p : Preferences} {s : Settings} {segment : String}
    (h : platformSegment p.platformPackage s = .ok segment) : ∃ text, configured? p s = some text ∧
      (segment = text ∨ text = "quilt" ∧ segment = "fabric") := by
  rw [platformSegment_eq_ok_iff] at h
  unfold segment? at h
  unfold configured?
  cases hsupplied : p.platformPackage with
  | some supplied =>
    rw [hsupplied] at h
    exact ⟨supplied, rfl, .inl (Option.some.inj h).symm⟩
  | none =>
    cases hproperty : s.properties.get? Key.platformPackage with
    | some property =>
      rw [hsupplied, hproperty] at h
      exact ⟨property, rfl, .inl (Option.some.inj h).symm⟩
    | none =>
      rw [hsupplied, hproperty, Option.none_or, Option.none_or, Option.map_eq_some_iff] at h
      obtain ⟨name, hname, hsegment⟩ := h
      refine ⟨name, hname, ?_⟩
      split at hsegment
      · exact .inr ⟨‹_›, hsegment.symm⟩
      · exact .inl hsegment.symm

/-- The name of the implementation class of a well-formed owner is well formed just when the
configured text is and no part of the owner's package consists of `$` alone. -/
theorem isClassName_implementationName_iff {p : Preferences} {s : Settings} {owner segment : String}
    (howner : IsClassName owner) (hsegment : platformSegment p.platformPackage s = .ok segment) :
    IsClassName (implementationName owner segment) ↔
      (∃ text, configured? p s = some text ∧ IsClassName text) ∧
        ∀ part ∈ (pieces owner).dropLast, ∃ c ∈ part.toList, c ≠ '$' := by
  obtain ⟨package, simple, hpieces⟩ := Path.exists_pieces_eq_concat owner
  obtain ⟨text, htext, hquilt⟩ := exists_configured hsegment
  have hconfigured : IsClassName segment ↔ IsClassName text := by
    obtain rfl | ⟨rfl, rfl⟩ := hquilt
    · rfl
    · exact iff_of_true (by decide) (by decide)
  rw [IsClassName, hpieces, List.forall_mem_append, List.forall_mem_singleton] at howner
  have hpackage : (∀ part ∈ package.map flattened, IsNamePart part) ↔
      ∀ part ∈ package, ∃ c ∈ part.toList, c ≠ '$' := by
    rw [List.forall_mem_map]
    exact forall₂_congr fun part hpart => (howner.1 part hpart).flattened_iff
  have hsource : (∃ text, configured? p s = some text ∧ IsClassName text) ↔ IsClassName segment := by
    rw [htext, hconfigured]
    simp
  rw [hsource, hpieces, List.dropLast_concat, ← hpackage, IsClassName,
    pieces_implementationName hpieces, List.forall_mem_append, List.forall_mem_append,
    List.forall_mem_singleton, and_iff_left howner.2.flattened_impl, and_comm]
  rfl

/-- A nested class in a package with a `$`, and a platform that goes by another name. -/
theorem isClassName_implementationName_nested :
    IsClassName "a/b$/C$D" ∧
      platformSegment Preferences.none.platformPackage (ofPlatform "quilt") = .ok "fabric" ∧
      IsClassName (implementationName "a/b$/C$D" "fabric") := by
  have howner : IsClassName "a/b$/C$D" := by decide
  have hsegment : platformSegment Preferences.none.platformPackage (ofPlatform "quilt") =
      .ok "fabric" := rfl
  have hconfigured : IsClassName "quilt" := by decide
  have hpackage : ∀ part ∈ (pieces "a/b$/C$D").dropLast, ∃ c ∈ part.toList, c ≠ '$' := by
    have hparts : (pieces "a/b$/C$D").dropLast = ["a", "b$"] := by decide
    rw [hparts]
    simp
  exact ⟨howner, hsegment,
    (isClassName_implementationName_iff howner hsegment).2 ⟨⟨"quilt", rfl, hconfigured⟩, hpackage⟩⟩

/-- A part of the package that is `$`, a supplied segment that is empty, and one of the properties
with a point in it. -/
theorem not_isClassName_implementationName :
    let property : Settings := ⟨(Properties.empty.set Key.platformName "fabric").set
      Key.platformPackage "x.y", "none"⟩
    (IsClassName "a/$/B" ∧ platformSegment none (ofPlatform "fabric") = .ok "fabric" ∧
        implementationName "a/$/B" "fabric" = "a//fabric/BImpl" ∧
        ¬ IsClassName "a//fabric/BImpl") ∧
      (IsClassName "a/B" ∧ platformSegment (some "") (ofPlatform "fabric") = .ok "" ∧
        implementationName "a/B" "" = "a//BImpl" ∧ ¬ IsClassName "a//BImpl") ∧
      platformSegment none property = .ok "x.y" ∧
        implementationName "a/B" "x.y" = "a/x.y/BImpl" ∧ ¬ IsClassName "a/x.y/BImpl" := by
  decide

end Forwarding

end PlatformLink
