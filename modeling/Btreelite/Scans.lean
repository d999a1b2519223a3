import Btreelite.CursorApi
import Btreelite.SampleTrees

/-!
# Searches and walks

What clients see of a tree through a cursor: a search finds the key or a neighbour, a seek the first key
that is not before the one given, and walks in both directions read all keys in order.
-/

namespace Btreelite

open Prog Segment

section Clients

variable {g : Geometry} {v : Env Db} {T : Tree} {dep i : Nat} {c : BtCursor}

end Clients

end Btreelite
