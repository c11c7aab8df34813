import SqlSharding.Proofs.InlineLists
import SqlSharding.Proofs.Outcomes

/-!
# Openers in names

Expansion ends a group at the first closing brace behind its opener and takes the items of a list as they are. So an item that
holds a dollar sign or an opening brace can put an opener into a name, as an item with a whole group in it does. Nothing else puts
one there (`exists_item_of_opener`).
-/

namespace SqlSharding

namespace Text

variable {separator cs before after : List Char}

theorem not_infix_of_cut?_eq_none (nonempty : separator ≠ []) (absent : cut? separator cs = none) : ¬ separator <:+: cs := by
  induction cs with
  | nil => exact fun inside => nonempty (List.infix_nil.mp inside)
  | cons c cs ih =>
    rw [cut?] at absent
    split at absent
    · cases absent
    · next notHere =>
      rw [List.infix_cons_iff, ← List.isPrefixOf_iff_prefix]
      rintro (here | later)
      · exact notHere here
      · exact ih (Option.map_eq_none_iff.mp absent) later

/-- A text is cut at the first occurrence of a separator. -/
theorem eq_append_of_cut? (nonempty : separator ≠ []) (found : cut? separator cs = some (before, after)) :
    cs = before ++ separator ++ after ∧ ¬ separator <:+: before := by
  induction cs generalizing before with
  | nil =>
    rw [cut?, if_neg (by simpa using nonempty)] at found
    cases found
  | cons c cs ih =>
    rw [cut?] at found
    split at found
    · next here =>
      cases found
      obtain ⟨rest, whole⟩ := List.isPrefixOf_iff_prefix.mp here
      refine ⟨?_, fun inside => nonempty (List.infix_nil.mp inside)⟩
      rw [← whole, List.drop_left]
      rfl
    · next notHere =>
      obtain ⟨⟨before, after⟩, found, same⟩ := Option.map_eq_some_iff.mp found
      cases same
      obtain ⟨whole, absent⟩ := ih found
      refine ⟨by rw [whole]; rfl, ?_⟩
      rw [List.infix_cons_iff]
      rintro (here | later)
      · refine notHere (List.isPrefixOf_iff_prefix.mpr (here.trans ?_))
        rw [whole, List.append_assoc]
        exact List.prefix_append (c :: before) _
      · exact absent later

end Text

namespace Routing.InlineList

open Text

variable {segment choice : List Char}

/-- The bodies of the groups of a segment, as expansion cuts them. -/
def bodies (segment : List Char) : List (List Char) :=
  match _hOpen : Text.cut? opener segment with
  | none => []
  | some (_, afterOpener) =>
    match _hClose : Text.cut? [closer] afterOpener with
    | none => []
    | some (body, after) => trim body :: bodies after
termination_by segment.length
decreasing_by
  have := Text.cut?_length _hOpen
  have := Text.cut?_length _hClose
  simp only [opener, List.length_cons, List.length_nil] at *
  omega

/-- A text that is no part of an opener. -/
structure Sealed (choice : List Char) : Prop where
  nonempty : choice ≠ []
  noDollar : '$' ∉ choice
  noBrace : '\x7b' ∉ choice

/-- An opener in a joined text stands in a part or at the seam. -/
theorem opener_infix_append {before after : List Char} (inside : opener <:+: before ++ after) :
    opener <:+: before ∨ opener <:+: after ∨ '$' ∈ before.getLast? ∧ '\x7b' ∈ after.head? := by
  rcases List.infix_append_iff.mp inside with inBefore | inAfter | ⟨front, back, whole, isSuffix, isPrefix⟩
  · exact .inl inBefore
  · exact .inr (.inl inAfter)
  · match front, whole with
    | [], whole => exact .inr (.inl (whole ▸ isPrefix.isInfix))
    | [_], whole =>
      cases whole
      obtain ⟨rest, rfl⟩ := isSuffix
      obtain ⟨rest', rfl⟩ := isPrefix
      exact .inr (.inr ⟨by simp, rfl⟩)
    | [_, _], whole =>
      cases whole
      exact .inl isSuffix.isInfix

/-- Between a text and another one, a sealed text puts no opener. -/
theorem Sealed.opener_infix {before after : List Char} (isSealed : Sealed choice)
    (inside : opener <:+: before ++ choice ++ after) : opener <:+: before ∨ opener <:+: after := by
  have noOpener : ¬ opener <:+: choice := fun inside => isSealed.noDollar (inside.subset List.mem_cons_self)
  rcases opener_infix_append inside with inFront | inAfter | ⟨last, -⟩
  · rcases opener_infix_append inFront with inBefore | inChoice | ⟨-, first⟩
    · exact .inl inBefore
    · exact absurd inChoice noOpener
    · exact absurd (List.mem_of_mem_head? first) isSealed.noBrace
  · exact .inr inAfter
  · rw [List.getLast?_append_of_ne_nil _ isSealed.nonempty] at last
    exact absurd (List.mem_of_mem_getLast? last) isSealed.noDollar

theorem Sealed.of_toString (n : Int) : Sealed (toString n).toList := by
  have natural (n : Nat) : Sealed (Nat.toDigits 10 n) := by
    have digits {c : Char} (member : c ∈ Nat.toDigits 10 n) : c.isDigit = true :=
      Nat.isDigit_of_mem_toDigits (by decide) (by decide) member
    exact ⟨Nat.toDigits_ne_nil, fun member => absurd (digits member) (by decide), fun member => absurd (digits member) (by decide)⟩
  cases n with
  | ofNat n =>
    rw [show (toString (Int.ofNat n)).toList = Nat.toDigits 10 n from Nat.toList_repr]
    exact natural n
  | negSucc n =>
    have written : (toString (Int.negSucc n)).toList = '-' :: Nat.toDigits 10 (n + 1) := by
      rw [show toString (Int.negSucc n) = "-" ++ (n + 1).repr from rfl, String.toList_append, Nat.toList_repr]
      rfl
    obtain ⟨-, noDollar, noBrace⟩ := natural (n + 1)
    rw [written]
    exact ⟨List.cons_ne_nil _ _, by simpa using noDollar, by simpa using noBrace⟩

/-- A choice that is not sealed is an item of a list. -/
theorem sealed_or_item {body : List Char} {offered : List (List Char)} (chosen : choices body segment = .ok offered)
    (member : choice ∈ offered) :
    Sealed choice ∨
      ∃ items, bracketed? body = some items ∧ choice ∈ listChoices items ∧ ('$' ∈ choice ∨ '\x7b' ∈ choice) := by
  rw [choices] at chosen
  cases listed : bracketed? body with
  | some items =>
    rw [listed] at chosen
    cases chosen
    by_cases special : '$' ∈ choice ∨ '\x7b' ∈ choice
    · exact .inr ⟨items, rfl, member, special⟩
    · obtain ⟨noDollar, noBrace⟩ := not_or.mp special
      have nonempty := (List.mem_filter.mp member).2
      exact .inl ⟨by simpa using nonempty, noDollar, noBrace⟩
  | none =>
    rw [listed] at chosen
    dsimp only at chosen
    split at chosen
    · cases chosen
    · split at chosen
      · split at chosen
        · cases chosen
          obtain ⟨n, -, rfl⟩ := List.mem_map.mp member
          exact .inl (.of_toString n)
        · cases chosen
      · cases chosen

theorem bodies_eq (segment : List Char) : bodies segment =
    match cut? opener segment with
    | none => []
    | some (_, afterOpener) =>
      match cut? [closer] afterOpener with
      | none => []
      | some (body, after) => trim body :: bodies after := by
  rw [bodies]
  split
  · next opened => rw [opened]
  · next opened =>
    rw [opened]
    dsimp only
    split
    · next closed => rw [closed]
    · next closed => rw [closed]

/-- An item of a list that a group of a segment offers. -/
def IsItemOf (segment item : List Char) : Prop :=
  ∃ body ∈ bodies segment, ∃ items, bracketed? body = some items ∧ item ∈ listChoices items

/-- The variants of a segment with a group put together the text before it, a choice and a variant of the text after it. -/
theorem exists_parts_of_variants {before afterOpener body after : List Char} {names : List (List Char)}
    (opened : cut? opener segment = some (before, afterOpener)) (closed : cut? [closer] afterOpener = some (body, after))
    (expanded : variants segment = .ok names) : ∃ offered tails, choices (trim body) segment = .ok offered ∧
      variants after = .ok tails ∧ names = offered.flatMap fun choice => tails.map fun tail => before ++ choice ++ tail := by
  rw [variants_eq, opened] at expanded
  dsimp only at expanded
  rw [closed] at expanded
  dsimp only at expanded
  obtain ⟨offered, chosen, expanded⟩ := bind_eq_ok_iff.mp expanded
  obtain ⟨tails, rest, expanded⟩ := bind_eq_ok_iff.mp expanded
  exact ⟨offered, tails, chosen, rest, (pure_eq_ok_iff.mp expanded).symm⟩

theorem bodies_of_cut {before afterOpener body after : List Char} (opened : cut? opener segment = some (before, afterOpener))
    (closed : cut? [closer] afterOpener = some (body, after)) : bodies segment = trim body :: bodies after := by
  rw [bodies_eq, opened]
  dsimp only
  rw [closed]

/-- An opener gets into a variant of a segment with an item only. -/
theorem exists_item_of_variants {names : List (List Char)} (expanded : variants segment = .ok names) {name : List Char}
    (member : name ∈ names) (copied : opener <:+: name) :
    ∃ item, IsItemOf segment item ∧ ('$' ∈ item ∨ '\x7b' ∈ item) := by
  induction segment using variants.induct generalizing names name with
  | case1 segment noOpener =>
    rw [variants_eq, noOpener] at expanded
    cases expanded
    cases List.mem_singleton.mp member
    exact absurd copied (not_infix_of_cut?_eq_none (List.cons_ne_nil _ _) noOpener)
  | case2 segment before afterOpener opened noCloser =>
    rw [variants_eq, opened] at expanded
    dsimp only at expanded
    rw [noCloser] at expanded
    cases expanded
  | case3 segment before afterOpener opened body after closed ih =>
    obtain ⟨offered, tails, chosen, rest, rfl⟩ := exists_parts_of_variants opened closed expanded
    obtain ⟨choice, isChoice, member⟩ := List.mem_flatMap.mp member
    obtain ⟨tail, isTail, rfl⟩ := List.mem_map.mp member
    rcases sealed_or_item chosen isChoice with isSealed | ⟨items, listed, isItem, special⟩
    · rcases isSealed.opener_infix copied with inBefore | inTail
      · exact absurd inBefore (eq_append_of_cut? (List.cons_ne_nil _ _) opened).2
      · obtain ⟨item, ⟨body', isBody, isItem⟩, special⟩ := ih rest isTail inTail
        exact ⟨item, ⟨body', by rw [bodies_of_cut opened closed]; exact List.mem_cons_of_mem _ isBody, isItem⟩, special⟩
    · exact ⟨choice, ⟨trim body, by rw [bodies_of_cut opened closed]; exact List.mem_cons_self, items, listed, isItem⟩, special⟩

/-- Each item of a list is copied into a variant, unless there is none. -/
theorem exists_variant_of_item {names : List (List Char)} (expanded : variants segment = .ok names) (nonempty : names ≠ [])
    {item : List Char} (isItem : IsItemOf segment item) : ∃ name ∈ names, item <:+: name := by
  induction segment using variants.induct generalizing names with
  | case1 segment noOpener =>
    obtain ⟨body, isBody, -⟩ := isItem
    rw [bodies_eq, noOpener] at isBody
    cases isBody
  | case2 segment before afterOpener opened noCloser =>
    rw [variants_eq, opened] at expanded
    dsimp only at expanded
    rw [noCloser] at expanded
    cases expanded
  | case3 segment before afterOpener opened body after closed ih =>
    obtain ⟨offered, tails, chosen, rest, rfl⟩ := exists_parts_of_variants opened closed expanded
    obtain ⟨name, member⟩ := List.exists_mem_of_ne_nil _ nonempty
    obtain ⟨choice, isChoice, member⟩ := List.mem_flatMap.mp member
    obtain ⟨tail, isTail, rfl⟩ := List.mem_map.mp member
    obtain ⟨body', isBody, items, listed, inList⟩ := isItem
    rw [bodies_of_cut opened closed] at isBody
    rcases List.mem_cons.mp isBody with rfl | later
    · have offers : offered = listChoices items := by
        rw [choices, listed] at chosen
        cases chosen
        rfl
      refine ⟨before ++ item ++ tail, List.mem_flatMap.mpr ⟨item, offers ▸ inList, List.mem_map.mpr ⟨tail, isTail, rfl⟩⟩, ?_⟩
      exact List.infix_append before item tail
    · obtain ⟨tail', isTail', inside⟩ := ih rest (List.ne_nil_of_mem isTail) ⟨body', later, items, listed, inList⟩
      refine ⟨before ++ choice ++ tail', List.mem_flatMap.mpr ⟨choice, isChoice, List.mem_map.mpr ⟨tail', isTail', rfl⟩⟩, ?_⟩
      exact inside.trans (List.suffix_append _ _).isInfix

/-! ## Names -/

variable {text name : String} {names : List String} {segments : List (List Char)}

/-- The segments of a text that are not blank. -/
def namedSegments? (text : String) : Option (List (List Char)) :=
  (segments? 0 text.toList).map fun segments => (segments.map trim).filter fun segment => !segment.isEmpty

theorem exists_variants_of_expand (expanded : expand text = .ok names) : ∃ segments variantLists,
    namedSegments? text = some segments ∧ segments.mapM variants = .ok variantLists ∧
      names = variantLists.flatten.map String.ofList := by
  rw [expand] at expanded
  rw [namedSegments?]
  cases found : segments? 0 text.toList with
  | none =>
    rw [found] at expanded
    cases expanded
  | some segments =>
    rw [found] at expanded
    dsimp only at expanded
    obtain ⟨variantLists, each, expanded⟩ := bind_eq_ok_iff.mp expanded
    exact ⟨_, variantLists, rfl, each, (pure_eq_ok_iff.mp expanded).symm⟩

/-- An opener gets into a name with an item of a list only, one that holds a dollar sign or an opening brace. -/
theorem exists_item_of_opener (expanded : expand text = .ok names) (member : name ∈ names) (copied : opener <:+: name.toList) :
    ∃ segments segment item, namedSegments? text = some segments ∧ segment ∈ segments ∧ IsItemOf segment item ∧
      ('$' ∈ item ∨ '\x7b' ∈ item) := by
  obtain ⟨segments, variantLists, found, each, rfl⟩ := exists_variants_of_expand expanded
  obtain ⟨variant, isVariant, rfl⟩ := List.mem_map.mp member
  obtain ⟨ofSegment, listed, inList⟩ := List.mem_flatten.mp isVariant
  obtain ⟨segment, isSegment, varied⟩ := exists_of_mem_mapM each listed
  rw [String.toList_ofList] at copied
  obtain ⟨item, isItem, special⟩ := exists_item_of_variants varied inList copied
  exact ⟨segments, segment, item, found, isSegment, isItem, special⟩

/-- A list whose items hold neither dollar signs nor opening braces stands for names without openers, whatever else is written in
it. -/
theorem noOpener_of_expand (found : namedSegments? text = some segments)
    (plain : ∀ segment ∈ segments, ∀ item, IsItemOf segment item → '$' ∉ item ∧ '\x7b' ∉ item)
    (expanded : expand text = .ok names) (member : name ∈ names) : ¬ opener <:+: name.toList := by
  intro copied
  obtain ⟨segments', segment, item, found', isSegment, isItem, special⟩ := exists_item_of_opener expanded member copied
  cases found.symm.trans found'
  obtain ⟨noDollar, noBrace⟩ := plain segment isSegment item isItem
  exact special.elim noDollar noBrace

/-- Each item of a list is copied into a name, an opener in it too, unless a group of its segment offers nothing. -/
theorem exists_name_of_item (expanded : expand text = .ok names) (found : namedSegments? text = some segments)
    (isSegment : segment ∈ segments) (offers : variants segment ≠ .ok []) {item : List Char} (isItem : IsItemOf segment item) :
    ∃ name ∈ names, item <:+: name.toList := by
  obtain ⟨segments', variantLists, found', each, rfl⟩ := exists_variants_of_expand expanded
  cases found.symm.trans found'
  obtain ⟨ofSegment, listed, varied⟩ := mem_of_mapM_eq_ok each isSegment
  obtain ⟨variant, isVariant, inside⟩ := exists_variant_of_item varied (fun none => offers (none ▸ varied)) isItem
  refine ⟨String.ofList variant, List.mem_map.mpr ⟨variant, List.mem_flatten.mpr ⟨ofSegment, listed, isVariant⟩, rfl⟩, ?_⟩
  rwa [String.toList_ofList]

/-- A group inside a list is cut at its own closing brace, and its opener is copied. -/
example : expand "ds_0.t_$\x7b[a,$\x7b[b]\x7d]\x7d" = .ok ["ds_0.t_a]\x7d", "ds_0.t_$\x7b[b]\x7d"] := by
  cbv

end Routing.InlineList

end SqlSharding
