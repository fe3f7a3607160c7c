/-!
# A pool of texts

Texts that are met again and again are stored once.  Interning a text gives back the stored text
and the slot it is stored in; the slot plays the part of an address.  Slots are handed out in the
order of first sight and are never given up.
-/

namespace Treeprint

/-- Texts in the order of first sight, each once. -/
structure TextPool where
  texts : List String
  nodup : texts.Nodup

namespace TextPool

def empty : TextPool := ⟨[], List.nodup_nil⟩

instance : Inhabited TextPool := ⟨empty⟩

def size (pool : TextPool) : Nat := pool.texts.length

def isEmpty (pool : TextPool) : Bool := pool.size = 0

/-- The slot of a text, when it is stored. -/
def slot? (pool : TextPool) (text : String) : Option Nat := pool.texts.idxOf? text

/-- The text with its slot, and the pool that has it. -/
def intern (pool : TextPool) (text : String) : (String × Nat) × TextPool :=
  if h : text ∈ pool.texts then
    let slot := pool.texts.idxOf text
    ((pool.texts.getD slot text, slot), pool)
  else
    ((text, pool.texts.length), ⟨pool.texts ++ [text], by
      rw [List.nodup_append]
      exact ⟨pool.nodup, by simp, by
        intro x hx y hy hxy
        rw [List.mem_singleton] at hy
        exact h (hy ▸ hxy ▸ hx)⟩⟩)

end TextPool

end Treeprint
