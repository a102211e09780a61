import Ruvoy.Stream.History

/-!
# A response that is collected

What comes of a stream of items when one buffer is to hold them all: the last head, and the bytes of
the chunks. `UpstreamCall#response`, `FiberRuntimeClient::call` and `submit_collected` collect so.
-/

set_option autoImplicit false

namespace Ruvoy

/-- A complete response. -/
structure Response where
  status : ℕ
  headers : List (String × String)
  body : Bytes
  rubyThreadObjectId : ℕ
  deriving DecidableEq, Repr

/-- `head` and `body` of a collector. -/
structure Collected where
  head : Option ResponseHead := none
  body : Bytes := []
  deriving DecidableEq, Repr

namespace Collected

/-- What an item adds, where it does not end the response. -/
def add (c : Collected) : StreamItem → Collected
  | .Head head => { c with head := some head }
  | .Chunk chunk => { c with body := c.body ++ chunk }
  | .End | .Failed _ => c

end Collected

/-- What the items come to. -/
def collect (items : List StreamItem) : Collected := items.foldl Collected.add {}

theorem collect_concat (items : List StreamItem) (x : StreamItem) :
    collect (items ++ [x]) = (collect items).add x := by
  rw [collect, List.foldl_append]
  rfl

/-- An item that ends the response is the last that a queue without it takes. -/
theorem terminal_free_concat {items : List StreamItem} {x : StreamItem}
    (h : ∀ y ∈ items, y.terminal = false) (hx : x.terminal = false) :
    ∀ y ∈ items ++ [x], y.terminal = false := by
  intro y hy
  rcases List.mem_append.mp hy with hold | hnew
  · exact h y hold
  · rw [List.mem_singleton.mp hnew]
    exact hx

end Ruvoy
