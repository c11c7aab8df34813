import SqlSharding.Sql.Walk

/-!
# Names and values

The smallest parts of clauses: dotted names, literal values and placeholders.
-/

namespace SqlSharding.Sql.Walk

/-- Passes a table name, which a schema may precede. -/
def qualifiedName : Walk Identifier := do
  let first ← identifier
  if ← eat (.symbol .dot) then identifier else return first

/-- Passes a table name and records the table. -/
def tableName : Walk Identifier := do
  let name ← qualifiedName
  record (·.addTable name none)
  return name

/-- Passes the parts of a dotted name after its first one, and tells whether the name ends with a star. -/
def nameParts (first : Identifier) : Walk (List Identifier × Bool) :=
  repeatFrom ([first], false) fun (parts, _) => do
    if ← eat (.symbol .dot) then
      let k ← kind
      if k.isIdentifier then
        let part ← identifier
        return (true, parts ++ [part], false)
      else if k = .symbol .star then
        discard advance
        return (false, parts, true)
      else failExpected .identifier
    else return (false, parts, false)

/-- Passes a dotted name and records the qualifier, the part before the last one. The result is the column that it
names; a name that ends with a star names none. -/
def column : Walk (Option Column) := do
  let (parts, star) ← nameParts (← identifier)
  if star then
    match parts.getLast? with
    | some owner => record (·.addQualifier owner)
    | none => pure ()
    return none
  else
    match parts.reverse with
    | [] => return none
    | [last] => return some ⟨none, last.name⟩
    | last :: owner :: _ =>
      record (·.addQualifier owner)
      return some ⟨some owner.name, last.name⟩

/-- The number of the opposite sign; the least integer has none and stays. -/
def negated? : TokenKind → Option Value
  | .integer i => some (.integer (-i))
  | .float x => some (.float x.neg)
  | _ => none

/-- Passes a number, a string or a placeholder, if one stands here. A minus sign is passed even if no number
follows. -/
def value? : Walk (Option Operand) := do
  match ← kind with
  | .integer i =>
    discard advance
    return some (.literal (.integer i))
  | .float x =>
    discard advance
    return some (.literal (.float x))
  | .string s =>
    discard advance
    return some (.literal (.text s))
  | .symbol .question =>
    let index ← parameterIndex
    discard advance
    return some (.placeholder index)
  | .symbol .minus =>
    discard advance
    match negated? (← kind) with
    | some v =>
      discard advance
      return some (.literal v)
    | none => return none
  | _ => return none

end SqlSharding.Sql.Walk
