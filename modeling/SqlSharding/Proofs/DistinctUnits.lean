import SqlSharding.Proofs.Assignments
import SqlSharding.Proofs.Rules

/-!
# Units without repetitions

A statement has one unit for each combination of physical tables. Where no rule lists a data node twice, no combination
comes twice, and different combinations give different texts: every table of a statement is named somewhere in its text, and
a physical name ends where it is not a word any more (`distinct_units_of_route`). A node that is listed twice is
read twice.
-/

namespace SqlSharding

/-! ## Routes and assignments without repetitions -/

namespace Routing

variable {t primary : TableRule} {pins : Pins} {nodes : List DataNode} {source : String} {assigned : Assignments}

/-- Nodes that are grouped by their data sources differ if the tables of each group do. -/
theorem nodup_flatten {sources : List String} {groups : List (List DataNode)} (once : sources.Nodup)
    (each : List.Forall₂ (fun source group => ∃ tables : List String, tables.Nodup ∧ tables.map (DataNode.mk source) = group)
      sources groups) : groups.flatten.Nodup ∧ ∀ node ∈ groups.flatten, node.dataSource ∈ sources := by
  induction each with
  | nil => exact ⟨List.nodup_nil, nofun⟩
  | @cons source group sources groups first _ ih =>
    obtain ⟨tables, different, rfl⟩ := first
    obtain ⟨new, once⟩ := List.nodup_cons.mp once
    obtain ⟨later, inSources⟩ := ih once
    have here : ∀ node ∈ tables.map (DataNode.mk source), node.dataSource = source := by
      intro node member
      obtain ⟨table, -, rfl⟩ := List.mem_map.mp member
      rfl
    rw [List.flatten_cons]
    refine ⟨.append (different.map fun x y same => congrArg DataNode.table same) later fun node first second => ?_,
      fun node member => ?_⟩
    · exact new (here node first ▸ inSources node second)
    · rcases List.mem_append.mp member with first | rest
      · exact here node first ▸ List.mem_cons_self
      · exact List.mem_cons_of_mem _ (inSources node rest)

/-- A route lists no node twice if its table does not. -/
theorem TableRule.nodup_route (nodup : t.dataNodes.Nodup) (run : t.route pins = .ok nodes) : nodes.Nodup := by
  obtain ⟨sources, narrowed, run⟩ := bind_eq_ok_iff.mp run
  obtain ⟨groups, each, run⟩ := bind_eq_ok_iff.mp run
  obtain rfl := pure_eq_ok_iff.mp run
  have once : sources.Nodup := (nodup_distinct _).sublist (narrow_sublist narrowed)
  refine (nodup_flatten once ((forall₂_of_mapM_eq_ok each).imp fun source group ofSource => ?_)).1
  obtain ⟨tables, narrowed, made⟩ := bind_eq_ok_iff.mp ofSource
  exact ⟨tables, (nodup_tablesIn nodup source).sublist (narrow_sublist narrowed), pure_eq_ok_iff.mp made⟩

/-- Choices from lists without repetitions differ. -/
theorem nodup_combinations {choices : List (String × List String)} (nodup : ∀ choice ∈ choices, choice.2.Nodup) :
    (combinations choices).Nodup := by
  induction choices with
  | nil => exact List.nodup_singleton _
  | cons choice choices ih =>
    obtain ⟨logic, tables⟩ := choice
    have rest := ih fun choice member => nodup choice (List.mem_cons_of_mem _ member)
    refine List.nodup_flatMap.mpr ⟨fun table _ => rest.map fun a b same => (List.cons.inj same).2, ?_⟩
    refine (nodup _ List.mem_cons_self).imp fun {table table'} different a first second => ?_
    obtain ⟨b, -, rfl⟩ := List.mem_map.mp first
    obtain ⟨b', -, same⟩ := List.mem_map.mp second
    exact different (Prod.mk.inj (List.cons.inj same).1).2.symm

/-- No placement comes twice if no assignment does in any data source. -/
theorem nodup_placements (nodup : ∀ source, (inSource source assigned).Nodup) : (placements assigned).Nodup := by
  refine List.nodup_iff_count_le_one.mpr fun x => ?_
  have once : ((placements assigned).filter fun y => y.1 = x.1).Nodup := by
    refine List.Nodup.of_map (·.2) ?_
    rw [filter_placements]
    exact nodup x.1
  rw [← List.count_filter (p := fun y => y.1 = x.1) (decide_eq_true rfl)]
  exact List.nodup_iff_count_le_one.mp once x

theorem nodup_nodesOf {s : Sql.Statement} {parameters : List Value} {key : Option Rewrite.GeneratedKey}
    (nodup : t.dataNodes.Nodup) (run : nodesOf s parameters key t = .ok nodes) : nodes.Nodup := by
  obtain ⟨_, -, run⟩ := bind_eq_ok_iff.mp run
  exact TableRule.nodup_route nodup run

/-- Spread assignments differ if the routed nodes do. -/
theorem Spread.nodup {r : Rule} {done : List TableRule} {routed : List (TableRule × List DataNode)} {as : List Assignment}
    (spread : Spread r primary source done routed as) (nodup : ∀ x ∈ routed, x.2.Nodup) : as.Nodup := by
  refine List.Nodup.of_map (List.filter fun y => isFree r primary y.1) ?_
  rw [spread.product]
  refine nodup_combinations fun choice member => ?_
  obtain ⟨x, isRouted, rfl⟩ := List.mem_map.mp member
  exact nodup_tablesOf (nodup x isRouted) source

end Routing

/-! ## Places of the tables -/

namespace Sql

variable {d : Dialect} {sql : String} {stmt : Statement}

/-- The name of a table stands at some point of a list. -/
def NamedAt (points : List RewritePoint) (name : String) : Prop :=
  ∃ span name' quote, .table span name' quote ∈ points ∧ Text.sameName name' name = true

theorem NamedAt.mono {points later : List RewritePoint} (subset : points ⊆ later) {name : String} (named : NamedAt points name) :
    NamedAt later name := by
  obtain ⟨span, name', quote, member, same⟩ := named
  exact ⟨span, name', quote, subset member, same⟩

/-- Walks over a statement record the place of a table with the table. -/
theorem Walk.namedAt_kept :
    KeptByRecords (fun s => ∀ name ∈ s.statement.tables.names, NamedAt s.statement.points name) fun _ => True where
  records_false := trivial
  advance s _ u run holds := by
    obtain ⟨next, -, -, rfl⟩ := advance_eq_ok_iff.mp run
    exact holds
  conditions _ _ := id
  rows _ _ _ := id
  qualifier _ _ := id
  table s x aliasName holds name member := by
    replace member : name ∈ (Tables.insert ⟨x.name, aliasName⟩ s.statement.tables.entries).map (·.name) := member
    rcases Tables.names_insert ⟨x.name, aliasName⟩ s.statement.tables.entries with known | ⟨added, -⟩
    · rw [known] at member
      exact (holds name member).mono (List.subset_append_left _ _)
    · rw [added] at member
      rcases List.mem_append.mp member with old | new
      · exact (holds name old).mono (List.subset_append_left _ _)
      · obtain rfl := List.mem_singleton.mp new
        exact ⟨x.span, x.name, x.quote, List.mem_append_right _ (List.mem_singleton_self _), Text.sameName_refl _⟩
  paginate s rowCount offset rewritable _ holds name member := by
    rw [Statement.paginate_eq] at member ⊢
    exact (holds name member).mono (List.subset_append_left _ _)

/-- Every table of a statement has a point at which its name stands. -/
theorem namedAt_of_parse (parsed : parse d sql = .ok stmt) : ∀ name ∈ stmt.tables.names, NamedAt stmt.points name := by
  obtain ⟨kind, p, ts, n, s, -, -, run, rfl⟩ := parse_eq_ok_iff.mp parsed
  have recorded := (Walk.namedAt_kept.settled.wholeStatement (b := false) (Company.keeping_keyPoints fun _ _ _ => ?_) trivial
    kind).keeps _ _ _ run nofun
  · intro name member
    exact (recorded name member).mono fun q inPoints => Statement.mem_sortPoints.mpr (List.mem_append_left _ inPoints)
  · exact .records fun s holds name member => (holds name member).mono (List.subset_append_left _ _)

end Sql

/-! ## Words in a text -/

namespace Rewrite

open Sql Text

/-- A name of letters, digits and the signs of words only. -/
def IsPlainName (name : String) : Prop := ∀ c ∈ name.toList, isWordPart c = true

/-- A name in the quotes of the name that it replaces. -/
def inQuotes (quote : Option QuoteStyle) (name : String) : List Char := (quote.elim name (·.quote name)).toList

/-- Words before texts that do not go on with a word. -/
theorem eq_of_append_eq {u v r r' : List Char} (word : ∀ c ∈ u, isWordPart c = true) (word' : ∀ c ∈ v, isWordPart c = true)
    (ends : r.head?.any isWordPart = false) (ends' : r'.head?.any isWordPart = false) (same : u ++ r = v ++ r') :
    u = v ∧ r = r' := by
  have first := takeWhile_of_all word ends
  rw [same, takeWhile_of_all word' ends'] at first
  subst first
  exact ⟨rfl, List.append_cancel_left same⟩

theorem isWordPart_opening (style : QuoteStyle) : isWordPart style.opening = false := by cases style <;> decide

theorem isWordPart_closing (style : QuoteStyle) : isWordPart style.closing = false := by cases style <;> decide

theorem inQuotes_of_plain {style : QuoteStyle} {name : String} (plain : IsPlainName name) :
    inQuotes (some style) name = style.opening :: (name.toList ++ [style.closing]) := by
  have inside : ∀ c ∈ name.toList, c ≠ style.closing := by
    rintro c member rfl
    have word := plain _ member
    rw [isWordPart_closing] at word
    cases word
  have same : style.escape name.toList = name.toList := by
    rw [QuoteStyle.escape]
    split
    · rw [List.flatMap_congr fun c member => if_neg (inside c member), List.flatMap_singleton']
    · rfl
  rw [inQuotes, Option.elim_some, QuoteStyle.quote, String.toList_ofList, same, List.cons_append]

/-- A name in quotes that is followed by no word tells the name. -/
theorem eq_of_inQuotes {quote : Option QuoteStyle} {p q : String} {r r' : List Char} (plain : IsPlainName p)
    (plain' : IsPlainName q) (ends : quote = none → r.head?.any isWordPart = false ∧ r'.head?.any isWordPart = false)
    (same : inQuotes quote p ++ r = inQuotes quote q ++ r') : p = q ∧ r = r' := by
  cases quote with
  | none =>
    obtain ⟨word, rest⟩ := eq_of_append_eq plain plain' (ends rfl).1 (ends rfl).2 same
    exact ⟨String.toList_inj.mp word, rest⟩
  | some style =>
    rw [inQuotes_of_plain plain, inQuotes_of_plain plain', List.cons_append, List.cons_append, List.append_assoc,
      List.append_assoc] at same
    have closes (r : List Char) : ([style.closing] ++ r).head?.any isWordPart = false := isWordPart_closing style
    obtain ⟨word, rest⟩ := eq_of_append_eq plain plain' (closes r) (closes r') (List.cons.inj same).2
    exact ⟨String.toList_inj.mp word, List.append_cancel_left rest⟩

/-- Two new spellings of a token: the same one, or plain names for the name that the token is. -/
def Respelled (t : Token) (x y : Option (List Char)) : Prop :=
  x = y ∨ ∃ name quote p q, t.kind = quote.elim (.identifier name) (.quotedIdentifier name) ∧
    x = some (inQuotes quote p) ∧ y = some (inQuotes quote q) ∧ IsPlainName p ∧ IsPlainName q

/-- A new spelling begins with a word only if the token does. -/
def KeepsHead (d : Dialect) (t : Token) (new : Option (List Char)) : Prop :=
  ∀ x, new = some x → ∀ source r, Spells d source r t.kind → source.head?.any isWordPart = false →
    ∃ c cs, x = c :: cs ∧ isWordPart c = false

variable {d : Dialect} {start : Nat} {cs : List Char} {ts : List Token} {new new' : Token → Option (List Char)}

/-- With such spellings a text begins with a word only if it did before. -/
theorem head?_replacements (written : Written d start cs ts) (heads : ∀ t ∈ ts, KeepsHead d t (new t))
    (ends : cs.head?.any isWordPart = false) :
    (applyFrom start cs (replacements new ts)).head?.any isWordPart = false := by
  cases written with
  | done => exact ends
  | @next _ t ts blank source r begins finishes gap spells tail =>
    rw [applyFrom_replacements_cons begins finishes tail.laid]
    cases blank with
    | cons => exact ends
    | nil =>
      obtain ⟨c, rest, rfl, -⟩ := spells.front
      cases spelling : new t with
      | none => exact ends
      | some x =>
        obtain ⟨y, ys, rfl, noWord⟩ := heads t List.mem_cons_self x spelling _ r spells ends
        exact noWord

/-- Texts with such spellings are the same only if the spellings are. -/
theorem eq_of_replacements (written : Written d start cs ts) (heads : ∀ t ∈ ts, KeepsHead d t (new t))
    (heads' : ∀ t ∈ ts, KeepsHead d t (new' t)) (respelled : ∀ t ∈ ts, Respelled t (new t) (new' t))
    (same : applyFrom start cs (replacements new ts) = applyFrom start cs (replacements new' ts)) :
    ∀ t ∈ ts, new t = new' t := by
  induction written with
  | done => exact nofun
  | @next start t ts blank source r begins finishes gap spells tail ih =>
    rw [applyFrom_replacements_cons begins finishes tail.laid, applyFrom_replacements_cons begins finishes tail.laid,
      List.append_assoc, List.append_assoc] at same
    replace same := List.append_cancel_left same
    have laterHeads := fun u member => heads u (List.mem_cons_of_mem t member)
    have laterHeads' := fun u member => heads' u (List.mem_cons_of_mem t member)
    obtain ⟨here, rest⟩ : new t = new' t ∧
        applyFrom t.span.finish r (replacements new ts) = applyFrom t.span.finish r (replacements new' ts) := by
      rcases respelled t List.mem_cons_self with equal | ⟨name, quote, p, q, isName, spelling, spelling', plain, plain'⟩
      · rw [equal] at same
        exact ⟨equal, List.append_cancel_left same⟩
      · rw [spelling, spelling', Option.getD_some, Option.getD_some] at same
        obtain ⟨rfl, rest⟩ := eq_of_inQuotes plain plain' (fun bare => by
          rw [bare] at isName
          rw [isName] at spells
          obtain ⟨_, _, -, -, -, -, ends⟩ := spells.identifier
          exact ⟨head?_replacements tail laterHeads ends, head?_replacements tail laterHeads' ends⟩) same
        exact ⟨spelling.trans spelling'.symm, rest⟩
    intro u member
    rcases List.mem_cons.mp member with rfl | later
    · exact here
    · exact ih laterHeads laterHeads' (fun u member => respelled u (List.mem_cons_of_mem t member)) rest u later

/-- A number that begins with its point has a fraction. -/
theorem numberLexeme_of_point (rest : List Char) (digit : (rest.head?.map Char.isDigit).getD false = true) :
    ∃ x more, numberLexeme ('.' :: rest) = .token (.float x) more := by
  have starts : startsDigit rest = true := by
    cases rest with
    | nil => cases digit
    | cons => exact digit
  have fraction : fractionPart? ('.' :: rest) ≠ none := by
    rw [ne_eq, fractionPart?_eq_none, startsFraction, starts]
    decide
  have decimal : hexNumber? ('.' :: rest) = none := rfl
  have noWhole : ('.' :: rest).takeWhile Char.isDigit = [] := rfl
  obtain ⟨digits, found⟩ := Option.ne_none_iff_exists'.mp fraction
  simp [numberLexeme, decimal, decimalNumber, noWhole, found]

/-- An integer begins with a digit. -/
theorem isDigit_of_integer {source r : List Char} {i : Int64} (spells : Spells d source r (.integer i)) :
    ∃ c tail, source = c :: tail ∧ c.isDigit = true := by
  obtain ⟨-, c, tail, rfl, front⟩ := spells
  refine ⟨c, tail, rfl, ?_⟩
  have read := front 0
  have noString {quote : Char} {more : Nat} : stringLexeme d 0 quote (tail ++ r) ≠ .token (.integer i) more := by
    rw [stringLexeme]
    split <;> simp
  have noName {style : QuoteStyle} {more : Nat} : quotedIdentifierLexeme 0 style (tail ++ r) ≠ .token (.integer i) more := by
    rw [quotedIdentifierLexeme]
    split <;> simp
  by_contra noDigit
  rw [lexeme] at read
  split at read
  · exact noString read
  split at read
  · exact noString read
  split at read
  · exact noName read
  split at read
  · exact noName read
  split at read
  · exact noName read
  split at read
  · next number =>
    obtain ⟨rfl, digit⟩ : c = '.' ∧ ((tail ++ r).head?.map Char.isDigit).getD false = true := by simpa [noDigit] using number
    obtain ⟨x, more, isFloat⟩ := numberLexeme_of_point (tail ++ r) digit
    cases isFloat.symm.trans read
  split at read
  · obtain ⟨isWord, -⟩ := Lexeme.token.inj read
    cases word : Keyword.ofWord? d (String.ofList (c :: (tail ++ r).takeWhile isWordPart)) with
    | some k | none =>
      rw [word] at isWord
      cases isWord
  split at read
  · obtain ⟨_, same⟩ := variableLexeme_isVariable read
    cases same
  · split at read
    · cases read
    · split at read
      · cases read
      · split at read <;> cases read

namespace Target

variable {p : Place} {points : List RewritePoint} {target : Target} {usesPlaceholder : Bool}
  (spaced : Spaced ts) (sited : Sited ts points)

include spaced sited

/-- The new spellings of a target begin with words only where tokens do. -/
theorem keepsHead {t : Token} (inText : t ∈ ts) :
    KeepsHead d t ((target.editOf? usesPlaceholder points t).map (Edit.spelling t)) := by
  intro x spelling source r spells ends
  obtain ⟨e, found, rfl⟩ := Option.map_eq_some_iff.mp spelling
  obtain ⟨q, inPoints, isEdit, isOf, plain, key⟩ := exists_of_editOf? spaced sited inText found
  cases q with
  | table span name quote =>
    have placed := plain rfl
    rw [spelling_editOf? spaced sited inText inPoints placed] at spelling
    obtain ⟨physical, -, same⟩ := Option.map_eq_some_iff.mp spelling
    rw [← same]
    rw [placed.2] at spells
    cases quote with
    | none =>
      obtain ⟨c, tail, rfl, -, starts, -⟩ := Spells.identifier spells
      rw [List.head?_cons, Option.any_some, isWordPart_of_isWordStart starts] at ends
      cases ends
    | some style =>
      exact ⟨style.opening, _, by rw [Option.elim_some, QuoteStyle.quote, String.toList_ofList, List.cons_append],
        isWordPart_opening style⟩
  | offset span i | rowCount span i =>
    rw [(plain rfl).2] at spells
    obtain ⟨c, tail, rfl, digit⟩ := isDigit_of_integer spells
    rw [List.head?_cons, Option.any_some, isWordPart_of_isDigit digit] at ends
    cases ends
  | generatedKey columnsEnd valuesEnd slot =>
    obtain ⟨addition, text⟩ : ∃ addition, e.replacement = ", " ++ addition := by
      obtain ⟨key, -, isEdit⟩ := List.mem_flatMap.mp isEdit
      rcases List.mem_pair.mp isEdit with rfl | rfl
      · exact ⟨_, rfl⟩
      · exact ⟨_, rfl⟩
    have comma : e.replacement.toList = ',' :: ' ' :: addition.toList := by rw [text, String.toList_append]; rfl
    rw [Edit.spelling, comma]
    split
    · exact ⟨',', _, rfl, by decide⟩
    · exact ⟨',', _, rfl, by decide⟩

/-- Targets that differ in the names of the tables give tokens the same new spellings, or plain names for tables. -/
theorem respelled {tables tables' : List (String × String)}
    (named : ∀ name, Target.physicalTable? { target with tables } name = Target.physicalTable? { target with tables := tables' } name ∨
      ∃ p q, Target.physicalTable? { target with tables } name = some p ∧
        Target.physicalTable? { target with tables := tables' } name = some q ∧ IsPlainName p ∧ IsPlainName q)
    {t : Token} (inText : t ∈ ts) :
    Respelled t ((Target.editOf? { target with tables } usesPlaceholder points t).map (Edit.spelling t))
      ((Target.editOf? { target with tables := tables' } usesPlaceholder points t).map (Edit.spelling t)) := by
  by_cases placed : ∃ q ∈ points, q.At t
  · obtain ⟨q, inPoints, placed⟩ := placed
    rw [spelling_editOf? spaced sited inText inPoints placed, spelling_editOf? spaced sited inText inPoints placed]
    cases q with
    | offset | rowCount => exact .inl rfl
    | generatedKey => cases placed
    | table span name quote =>
      rcases named name with same | ⟨p, q, first, second, plain, plain'⟩
      · exact .inl (by rw [textAt?, textAt?, same])
      · refine .inr ⟨name, quote, p, q, placed.2, ?_, ?_, plain, plain'⟩
        · rw [textAt?, first]
          rfl
        · rw [textAt?, second]
          rfl
  · -- The edits of other tokens are those of a key.
    have ofKey {tables tables' : List (String × String)} {e : Edit}
        (found : Target.editOf? { target with tables } usesPlaceholder points t = some e) :
        Target.editOf? { target with tables := tables' } usesPlaceholder points t = some e := by
      obtain ⟨q, inPoints, isEdit, isOf, plain, -⟩ := exists_of_editOf? spaced sited inText found
      refine (editOf?_eq_some_iff spaced sited).mpr ⟨⟨q, inPoints, ?_⟩, isOf.start_eq⟩
      cases q with
      | generatedKey => exact isEdit
      | table | offset | rowCount => exact absurd ⟨_, inPoints, plain rfl⟩ placed
    refine .inl (congrArg (Option.map (Edit.spelling t)) (Option.ext fun e => ⟨ofKey, ofKey⟩))

end Target

end Rewrite

/-! ## Units without repetitions -/

namespace Routing

open Sql (Statement Dialect)
open Rewrite (Target IsPlainName inQuotes eq_of_inQuotes eq_of_replacements)

variable {r : Rule} {s : Statement} {sql : String} {parameters : List Value} {key : Value} {result : RouteResult} {d : Dialect}
  {a a' : Assignment} {source : String} {tables : List TableRule}

theorem Assignment.find?_congr {name name' : String} (same : Text.sameName name name' = true) : a.find? name = a.find? name' := by
  have lower := Text.sameName_iff_lower.mp same
  simp only [Assignment.find?, Text.sameName, lower]

/-- Assignments that cover the same tables both have an entry for a name or both have none. -/
theorem find?_of_covers (covers : a.Covers source tables) (covers' : a'.Covers source tables) (name : String) :
    a.find? name = none ∧ a'.find? name = none ∨ ∃ t ∈ tables, ∃ p q, a.find? name = some p ∧ a'.find? name = some q ∧
      ⟨source, p⟩ ∈ t.dataNodes ∧ ⟨source, q⟩ ∈ t.dataNodes := by
  cases known : tables.find? fun t => Text.sameName t.logicTable name with
  | some t =>
    have member := List.mem_of_find?_eq_some known
    have same : Text.sameName t.logicTable name = true := by simpa using List.find?_some known
    obtain ⟨p, found, node, -⟩ := covers.node t member
    obtain ⟨q, found', node', -⟩ := covers'.node t member
    rw [Assignment.find?_congr same] at found found'
    exact .inr ⟨t, member, p, q, found, found', node, node'⟩
  | none =>
    have absent {b : Assignment} (covers : b.Covers source tables) : b.find? name = none := by
      rw [Assignment.find?, Option.map_eq_none_iff, List.find?_eq_none]
      intro y member
      have listed : y.1 ∈ tables.map (·.logicTable) := covers.names ▸ List.mem_map_of_mem member
      obtain ⟨t, isTable, same⟩ := List.mem_map.mp listed
      exact same ▸ List.find?_eq_none.mp known t isTable
    exact .inl ⟨absent covers, absent covers'⟩

/-- Assignments that cover the same tables are the same if they agree on each of them. -/
theorem eq_of_covers (distinct : Sql.Distinct (tables.map (·.logicTable))) (covers : a.Covers source tables)
    (covers' : a'.Covers source tables) (agree : ∀ t ∈ tables, a.find? t.logicTable = a'.find? t.logicTable) : a = a' := by
  have names : a.map (·.1) = a'.map (·.1) := covers.names.trans covers'.names.symm
  have length : a.length = a'.length := by simpa using congrArg List.length names
  refine List.ext_getElem length fun i inside inside' => ?_
  have logic := List.getElem_of_eq names (by simpa using inside : i < (a.map (·.1)).length)
  rw [List.getElem_map, List.getElem_map] at logic
  have listed : a[i].1 ∈ tables.map (·.logicTable) := covers.names ▸ List.mem_map_of_mem (List.getElem_mem inside)
  obtain ⟨t, isTable, same⟩ := List.mem_map.mp listed
  have first := find?_eq_some (covers.names ▸ distinct) (List.getElem_mem inside)
  have second := find?_eq_some (covers'.names ▸ distinct) (List.getElem_mem inside')
  rw [← logic] at second
  rw [← same, agree t isTable, same, second] at first
  exact Prod.ext logic (Option.some.inj first).symm

/-- Units of one data source have the same text only if their assignments are the same. -/
theorem eq_of_unitOf (parsed : Sql.parse d sql = .ok s) (plain : ∀ t ∈ ruledTables r s, ∀ node ∈ t.dataNodes, IsPlainName node.table)
    {w : WidenedBounds} (noTables : w.target.tables = []) (covers : a.Covers source (ruledTables r s))
    (covers' : a'.Covers source (ruledTables r s)) {u v : ExecutionUnit} (made : unitOf s sql w source a = .ok u)
    (made' : unitOf s sql w source a' = .ok v) (same : u.sql = v.sql) : a = a' := by
  obtain ⟨e, ts, reads, sited⟩ := Sql.sited_of_parse parsed
  have spaced := (Sql.laid_of_reads reads).spaced
  have written : Sql.Written d 0 sql.toList ts := Sql.written_of_reads reads
  have distinct := distinct_ruledTables (r := r) (Sql.distinct_of_parse parsed)
  have looked {b : Assignment} (covers : b.Covers source (ruledTables r s)) (name : String) :
      Target.physicalTable? { w.target with tables := b.reverse } name = b.find? name :=
    physicalTable?_reverse (covers.names ▸ distinct) ..
  obtain rfl := unitOf_eq_ok made
  obtain rfl := unitOf_eq_ok made'
  rw [noTables, List.append_nil, List.append_nil] at same
  replace same := congrArg String.toList same
  rw [String.toList_ofList, String.toList_ofList, Target.applyFrom_edits spaced sited written,
    Target.applyFrom_edits spaced sited written] at same
  have spellings := eq_of_replacements written (fun t inText => Target.keepsHead spaced sited inText)
    (fun t inText => Target.keepsHead spaced sited inText) (fun t inText => Target.respelled spaced sited (fun name => by
      rw [looked covers, looked covers']
      rcases find?_of_covers covers covers' name with ⟨none, none'⟩ | ⟨t, isRuled, p, q, first, second, node, node'⟩
      · exact .inl (none.trans none'.symm)
      · exact .inr ⟨p, q, first, second, plain t isRuled _ node, plain t isRuled _ node'⟩) inText) same
  refine eq_of_covers distinct covers covers' fun t isRuled => ?_
  obtain ⟨name, isNamed, found⟩ := List.mem_filterMap.mp isRuled
  obtain ⟨span, name', quote, inPoints, sameName⟩ := Sql.namedAt_of_parse parsed name isNamed
  obtain ⟨token, inText, placed⟩ := (sited.stands _ inPoints).token rfl
  have spelled := spellings token inText
  rw [Target.spelling_editOf? spaced sited inText inPoints placed, Target.spelling_editOf? spaced sited inText inPoints placed,
    Target.textAt?, Target.textAt?, looked covers, looked covers'] at spelled
  have logic : Text.sameName t.logicTable name' = true :=
    Text.sameName_trans (Rule.sameName_of_find? found) (Text.sameName_comm .. ▸ sameName)
  rw [Assignment.find?_congr logic, Assignment.find?_congr logic]
  rcases find?_of_covers covers covers' name' with ⟨none, none'⟩ | ⟨t, isRuled, p, q, first, second, node, node'⟩
  · exact none.trans none'.symm
  · rw [first, second] at spelled
    have written : inQuotes quote p ++ [] = inQuotes quote q ++ [] := congrArg (· ++ []) (Option.some.inj spelled)
    have same : p = q := (eq_of_inQuotes (plain t isRuled _ node) (plain t isRuled _ node') (fun _ => ⟨rfl, rfl⟩) written).1
    rw [first, second, same]

/-- What differs pairwise gives results that differ pairwise. -/
theorem pairwise_of_forall₂ {α β : Type} {R : α → β → Prop} {P : α → α → Prop} {Q : β → β → Prop} {xs : List α} {ys : List β}
    (each : List.Forall₂ R xs ys) (apart : xs.Pairwise P)
    (carries : ∀ {x x' y y'}, R x y → R x' y' → P x x' → Q y y') : ys.Pairwise Q := by
  induction each with
  | nil => exact .nil
  | cons first rest ih =>
    obtain ⟨head, tail⟩ := List.pairwise_cons.mp apart
    refine .cons (fun y member => ?_) (ih tail)
    obtain ⟨x, inside, related⟩ := exists_of_forall₂ rest member
    exact carries first related (head x inside)

/-- No statement is sent to one data source twice in the same words, if no rule lists a node twice and all physical names are
words. -/
theorem distinct_units_of_route (parsed : Sql.parse d sql = .ok s) (nodup : ∀ t ∈ ruledTables r s, t.dataNodes.Nodup)
    (plain : ∀ t ∈ ruledTables r s, ∀ node ∈ t.dataNodes, IsPlainName node.table)
    (routed : route r s sql parameters key = .ok result) :
    result.units.Pairwise fun u v => ¬ (u.dataSource = v.dataSource ∧ u.sql = v.sql) := by
  cases ruled : ruledTables r s with
  | nil =>
    rw [route, ruled] at routed
    dsimp only [routeToDefault] at routed
    split at routed
    · cases routed
      exact List.pairwise_singleton _ _
    · cases routed
  | cons primary others =>
    have distinct := distinct_ruledTables (r := r) (Sql.distinct_of_parse parsed)
    obtain ⟨nodes, rest, assigned, w, first, routes, spread, noTables, made⟩ := spread_of_route parsed ruled routed
    have nodupNodes : ∀ x ∈ (primary, nodes) :: rest, x.2.Nodup := by
      intro x member
      rcases List.mem_cons.mp member with rfl | later
      · exact nodup_nodesOf (nodup primary (ruled ▸ List.mem_cons_self)) first
      · obtain ⟨t, isOther, rfl, run⟩ := exists_of_forall₂ routes later
        exact nodup_nodesOf (nodup _ (ruled ▸ List.mem_cons_of_mem _ (List.mem_filter.mp isOther).1)) run
    have different := nodup_placements fun source => (spread source).nodup nodupNodes
    have covered (x : String × Assignment) (member : x ∈ placements assigned) : x.2.Covers x.1 (ruledTables r s) := by
      rw [ruled] at distinct ⊢
      exact covers_of_seats ((spread x.1).seats x.2 (mem_inSource member)) distinct
    refine pairwise_of_forall₂ ((List.forall₂_and_left _ _).mpr ⟨covered, made⟩) different ?_
    rintro ⟨source, a⟩ ⟨source', a'⟩ u v ⟨covers, ofFirst⟩ ⟨covers', ofSecond⟩ apart ⟨here, same⟩
    have source_eq : u.dataSource = source := congrArg ExecutionUnit.dataSource (unitOf_eq_ok ofFirst)
    have source_eq' : v.dataSource = source' := congrArg ExecutionUnit.dataSource (unitOf_eq_ok ofSecond)
    obtain rfl : source = source' := source_eq.symm.trans (here.trans source_eq')
    exact apart (congrArg (Prod.mk source) (eq_of_unitOf parsed plain noTables covers covers' ofFirst ofSecond same))

/-- A query of all orders. -/
def queryOfOrders : Sql.Statement where
  kind := .select
  tables := ⟨[⟨"orders", none⟩]⟩
  conditions := .empty
  points := [.table ⟨14, 20⟩ "orders" none]
  parameterCount := 0
  limit := none
  insertColumns := []
  insertRows := 0
  qualifiers := []

/-- A node that is listed twice is read twice. -/
example : route (.ofTables [⟨"orders", [⟨"ds_0", "orders_0"⟩, ⟨"ds_0", "orders_0"⟩], none, none, none⟩] none) queryOfOrders
    "SELECT * FROM orders" [] .null = .ok ⟨.select, [⟨"ds_0", "SELECT * FROM orders_0", []⟩,
      ⟨"ds_0", "SELECT * FROM orders_0", []⟩], none, none⟩ := by
  cbv

end Routing

end SqlSharding
