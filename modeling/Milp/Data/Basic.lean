import Milp.Number.Text

/-!
# Structured data

What other programs exchange with the library is structured data: truth values, decimal numbers,
texts, lists, and parts with names. `Writable` values are written as data, `Readable` ones are read
from it. Doubles are written as texts, because decimal numbers have no infinities and lose the
digits that tell neighbours apart; they are read from numbers and texts alike. Where nothing is
said, a truth value is false, a number is zero, and a text or a list is empty.
-/

namespace Milp

/-- Structured data. A decimal is its digits divided by ten for each of its places. -/
inductive Data where
  | nothing
  | flag (value : Bool)
  | decimal (digits : Int) (places : Nat)
  | text (value : String)
  | list (items : List Data)
  | parts (entries : List (String × Data))
  deriving Inhabited

/-- Why data does not stand for a value. -/
inductive DataError where
  | missing (part : String)
  | unexpected (wanted : String)
  deriving DecidableEq, Repr

/-- The cause in words. -/
def DataError.message : DataError → String
  | .missing part => s!"{part} is missing"
  | .unexpected wanted => s!"expected {wanted}"

/-- Values that are written as data. -/
class Writable (β : Type) where
  /-- The data that stands for a value. -/
  write : β → Data

/-- Values that are read from data. -/
class Readable (β : Type) where
  /-- The value that data stands for. -/
  read : Data → Except DataError β
  /-- The value that nothing stands for, if there is one. -/
  absent : Option β := none

namespace Data

mutual

/-- How deep the data is nested. -/
def depth : Data → Nat
  | .list items => depthOfItems items + 1
  | .parts entries => depthOfParts entries + 1
  | _ => 1

/-- The depth of the deepest item. -/
def depthOfItems : List Data → Nat
  | [] => 0
  | d :: rest => max d.depth (depthOfItems rest)

/-- The depth of the deepest part. -/
def depthOfParts : List (String × Data) → Nat
  | [] => 0
  | (_, d) :: rest => max d.depth (depthOfParts rest)

end

variable {β γ : Type}

/-- The data that stands for a value. -/
def of [Writable β] (b : β) : Data := Writable.write b

/-- Whether the data is nothing. -/
def isNothing : Data → Bool
  | .nothing => true
  | _ => false

/-- The value that the data stands for. -/
def val [Readable β] (d : Data) : Except DataError β :=
  match if d.isNothing then Readable.absent else none with
  | some b => .ok b
  | none => Readable.read d

/-- A part by its name. A part that is nothing counts as absent. -/
def part? (d : Data) (name : String) : Option Data :=
  match d with
  | .parts entries =>
    match entries.lookup name with
    | some .nothing => none
    | found => found
  | _ => none

/-- The value of a part. One that is absent has to have a value that nothing stands for. -/
def get [Readable β] (d : Data) (name : String) : Except DataError β :=
  match d.part? name, (Readable.absent : Option β) with
  | some part, _ => part.val
  | none, some b => .ok b
  | none, none => .error (.missing name)

/-- The value of a part that may be absent. -/
def get? [Readable β] (d : Data) (name : String) : Except DataError (Option β) :=
  match d.part? name with
  | some part => some <$> part.val
  | none => .ok none

/-- The value of a part, or a default where it is absent. -/
def getD [Readable β] (d : Data) (name : String) (default : β) : Except DataError β := do
  pure ((← d.get? name).getD default)

/-- The value that a word stands for. -/
def word (wanted : String) (table : List (String × β)) : Data → Except DataError β
  | .text s =>
    match table.lookup s with
    | some b => .ok b
    | none => .error (.unexpected wanted)
  | _ => .error (.unexpected wanted)

/-- The name and the value of the only part. -/
def only : Data → Except DataError (String × Data)
  | .parts [entry] => .ok entry
  | _ => .error (.unexpected "one part")

end Data

/-! ### Writing -/

instance : Writable Data := ⟨id⟩

instance : Writable Unit := ⟨fun _ => .nothing⟩

instance : Writable Bool := ⟨.flag⟩

instance : Writable String := ⟨.text⟩

instance : Writable Int := ⟨fun i => .decimal i 0⟩

instance : Writable Nat := ⟨fun n => .decimal n 0⟩

instance : Writable Int32 := ⟨fun i => .of i.toInt⟩

instance : Writable UInt32 := ⟨fun n => .of n.toNat⟩

/-- Numbers of 64 bits are written as texts. -/
instance : Writable UInt64 := ⟨fun n => .text (Nat.repr n.toNat)⟩

/-- Both zeros are written alike. -/
instance : Writable Float := ⟨fun x => .text (if x == 0 then "0" else Number.text x)⟩

instance : Writable (Extended Float) where
  write
    | .fin x => .of x
    | x => .text (Number.extendedText x)

section

variable {β γ : Type} [Writable β] [Writable γ]

instance : Writable (Option β) where
  write
    | some b => .of b
    | none => .nothing

instance : Writable (List β) := ⟨fun bs => .list (bs.map .of)⟩

instance : Writable (Array β) := ⟨fun bs => .of bs.toList⟩

instance : Writable (β × γ) := ⟨fun (b, c) => .list [.of b, .of c]⟩

end

/-! ### Reading -/

instance : Readable Data where
  read := .ok

instance : Readable Bool where
  read
    | .flag b => .ok b
    | _ => .error (.unexpected "a truth value")
  absent := some false

instance : Readable String where
  read
    | .text s => .ok s
    | _ => .error (.unexpected "a text")
  absent := some ""

instance : Readable Char where
  read
    | .text s =>
      match s.toList with
      | [c] => .ok c
      | _ => .error (.unexpected "a character")
    | _ => .error (.unexpected "a character")

/-- Whole numbers are read from decimals without a fraction and from texts. -/
instance : Readable Int where
  read
    | .decimal digits places =>
      let unit : Int := Int.ofNat (Nat.pow 10 places)
      if digits % unit = 0 then .ok (digits / unit) else .error (.unexpected "a whole number")
    | .text s =>
      match Number.readWhole? s.toList with
      | some i => .ok i
      | none => .error (.unexpected "a whole number")
    | _ => .error (.unexpected "a whole number")
  absent := some 0

instance : Readable Nat where
  read d := do
    let i : Int ← d.val
    if i < 0 then throw (.unexpected "a count") else pure i.toNat
  absent := some 0

instance : Readable UInt64 where
  read d := UInt64.ofNat <$> d.val
  absent := some 0

instance : Readable Int32 where
  read d := Int32.ofInt <$> d.val
  absent := some 0

instance : Readable Int64 where
  read d := Int64.ofInt <$> d.val
  absent := some 0

instance : Readable Float where
  read
    | .decimal digits places =>
      let magnitude := Number.ofDecimal digits.natAbs (-(Int.ofNat places))
      .ok (if digits < 0 then -magnitude else magnitude)
    | .text s =>
      match Number.read? s with
      | some x => .ok x
      | none => .error (.unexpected "a number")
    | _ => .error (.unexpected "a number")
  absent := some 0

instance : Readable (Extended Float) where
  read d := Number.extend <$> d.val
  absent := some (.fin 0)

section

variable {β γ : Type} [Readable β] [Readable γ]

instance : Readable (List β) where
  read
    | .list items => items.mapM Data.val
    | _ => .error (.unexpected "a list")
  absent := some []

instance : Readable (Array β) where
  read d := List.toArray <$> d.val
  absent := some #[]

instance : Readable (β × γ) where
  read
    | .list [b, c] => do pure (← b.val, ← c.val)
    | _ => .error (.unexpected "a pair")

end
end Milp
