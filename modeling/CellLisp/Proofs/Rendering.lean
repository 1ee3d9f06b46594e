import CellLisp.Execution.Primitive
import CellLisp.Proofs.Encoding

namespace CellLisp

namespace Buffer

variable {content : Bytes} {start i : Nat} {bs : List UInt8}

-- What is in a buffer after some bytes were written into it: as many of them as there was room for, then
-- a zero, and then what was there.
structure Rendered (text content content' : Bytes) : Prop where
  size   : content'.size = content.size
  before : ∀ i < min text.size content.size, content'[i]? = text[i]?
  ends   : text.size < content.size → content'[text.size]? = some 0
  after  : ∀ i > text.size, content'[i]? = content[i]?

-- What was written is found up to the first zero.
theorem Rendered.takeWhile {text content content' : Bytes} (h : Rendered text content content')
    (hsize : text.size ≤ content.size) (hzero : 0 ∉ text) :
    content'.toList.takeWhile (· != 0) = text.toList := by
  have hsize' := h.size
  have hfirst : content'.toList.take text.size = text.toList := by
    refine List.ext_getElem? fun i => ?_
    by_cases hi : i < text.size
    case pos => simpa [List.getElem?_take_of_lt hi] using h.before i (by omega)
    case neg => rw [List.getElem?_eq_none (by simp; omega), List.getElem?_eq_none (by simpa using hi)]
  have hrest : (content'.toList.drop text.size).takeWhile (· != 0) = [] := by
    rcases Nat.lt_or_eq_of_le hsize with hlt | heq
    · have hend : content'.toList[text.size]? = some 0 := by simpa using h.ends hlt
      obtain ⟨hlt, hend⟩ := List.getElem?_eq_some_iff.mp hend
      rw [List.drop_eq_getElem_cons hlt, hend]
      rfl
    · rw [List.drop_eq_nil_of_le (by simp; omega), List.takeWhile_nil]
  have hplain : ∀ b ∈ text.toList, (b != 0) = true := by
    intro b hb
    exact bne_iff_ne.mpr fun hb0 => hzero (hb0 ▸ Array.mem_toList_iff.mp hb)
  rw [← List.take_append_drop text.size content'.toList, hfirst, List.takeWhile_append_of_pos hplain, hrest,
    List.append_nil]

end Buffer

namespace Heap

variable {h : Heap} {v b : Ref} {content : Bytes}

end Heap
end CellLisp
