import Librats.Core.Types

/-!
# Paths

Joining paths as `combine_paths` of `util/fs.cpp` does it, for files received from peers and for the
files of a torrent. A relative path that does not start with a separator and has no backslash stands
at the end of the joined path as it is (`exists_combinePaths_eq`).
-/

namespace Librats

/-- `/` and `\\`. -/
def isSeparator (c : UInt8) : Bool := c == 47 || c == 92

/-- `\` becomes `/`. -/
def forwardSlash (c : UInt8) : UInt8 := if c = 92 then 47 else c

def combinePaths (base relative : Bytes) : Bytes :=
  if base = [] then relative
  else if relative = [] then base
  else
    let result := base.map forwardSlash
    let result := if result.getLast? = some 47 then result else result ++ [47]
    let rel := if relative.head?.any isSeparator then relative.tail else relative
    result ++ rel.map forwardSlash

theorem map_forwardSlash {l : Bytes} (h : 92 ∉ l) : l.map forwardSlash = l := by
  conv_rhs => rw [← List.map_id l]
  refine List.map_congr_left fun c hc => ?_
  rw [forwardSlash, if_neg (by rintro rfl; exact h hc), id]

theorem exists_combinePaths_eq (base : Bytes) :
    ∃ front, ∀ relative, relative ≠ [] → relative.head?.any isSeparator = false → 92 ∉ relative →
      combinePaths base relative = front ++ relative := by
  by_cases hbase : base = []
  · exact ⟨[], fun relative _ _ _ => by rw [combinePaths, if_pos hbase, List.nil_append]⟩
  · refine ⟨if (base.map forwardSlash).getLast? = some 47 then base.map forwardSlash
      else base.map forwardSlash ++ [47], fun relative hne hhead hback => ?_⟩
    simp [combinePaths, if_neg hbase, if_neg hne, hhead, map_forwardSlash hback]

end Librats
