/-!
# Programs that ask

A program is a tree: it is done with a result, or it asks for something and goes on with the
answer. What it may ask for is a type of requests, and each request has its type of answers. A
program is therefore a value that something else runs, one request at a time, and that can be left
and taken up again between any two of them.

Results: `bind_done`, `bind_assoc` (programs compose in order).
-/

namespace CommandConsole

/-- A program over some requests and their answers. -/
inductive Program (Request : Type) (Answer : Request → Type) (α : Type) where
  | done (a : α)
  | ask (r : Request) (next : Answer r → Program Request Answer α)

namespace Program

variable {Request : Type} {Answer : Request → Type} {α β γ : Type}

/-- The first program, and then the one its result chooses. -/
def bind (p : Program Request Answer α) (f : α → Program Request Answer β) :
    Program Request Answer β :=
  match p with
  | done a => f a
  | ask r next => ask r fun answer => (next answer).bind f

instance : Monad (Program Request Answer) where
  pure := done
  bind := bind

/-- The program that asks once and answers with what it got. -/
def request (r : Request) : Program Request Answer (Answer r) :=
  ask r done

@[simp] theorem bind_done (p : Program Request Answer α) : p.bind done = p := by
  induction p with
  | done a => rfl
  | ask r next ih => simp [bind, ih]

theorem bind_assoc (p : Program Request Answer α) (f : α → Program Request Answer β)
    (g : β → Program Request Answer γ) : (p.bind f).bind g = p.bind fun a => (f a).bind g := by
  induction p with
  | done a => rfl
  | ask r next ih => simp [bind, ih]

end Program

end CommandConsole
