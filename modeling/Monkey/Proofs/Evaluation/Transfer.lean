import Monkey.Proofs.Evaluation.Renumbering

/-!
# Values of another run

A run can do what another one does and still differ from it in what nothing depends on: its syntax trees may
have other tokens, its machine may have held some scopes before, and some objects may have been made before.
A `Transfer` says how much, and `Value.transfer` takes a value of the one run to the value that stands for it
in the other. What an evaluation looks at in a value stays the same.
-/

namespace Monkey

/-! ### Transfers -/

/-- How the values of one run stand in another: with these tokens, and with the numbers of scopes and objects
    greater by so many. -/
structure Transfer where
  tokens : Relabeling
  scopes : Nat
  objects : Nat

namespace Transfer

/-- The transfer that adds to the numbers of scopes and objects, and keeps the tokens. -/
def shift (scopes objects : Nat) : Transfer :=
  ⟨Relocation.id.relabeling, scopes, objects⟩

/-- The transfer that changes nothing. -/
def id : Transfer :=
  shift 0 0

/-- The transfer that changes tokens only. -/
def relabeling (r : Relabeling) : Transfer :=
  ⟨r, 0, 0⟩

theorem relabeling_tokens (r : Relabeling) : (relabeling r).tokens = r := rfl

theorem relabeling_objects (r : Relabeling) : (relabeling r).objects = 0 := rfl

theorem id_tokens : id.tokens = Relocation.id.relabeling := rfl

theorem id_objects : id.objects = 0 := rfl

/-- The renumbering that a transfer is. -/
def renumbering (t : Transfer) : Renumbering where
  tokens := t.tokens
  scope := (· + t.scopes)
  object := (· + t.objects)
  scope_injective _ _ := Nat.add_right_cancel
  object_injective _ _ := Nat.add_right_cancel

end Transfer

def Env.transfer (t : Transfer) (env : Env) : Env :=
  ⟨env.scope + t.scopes, env.outer.map (· + t.scopes)⟩

theorem Env.transfer_of_scopes {t : Transfer} (env : Env) (h : t.scopes = 0) : env.transfer t = env := by
  simp [transfer, h]

namespace Value

section

variable (t : Transfer)

mutual

/-- The value of another run that stands for a value. -/
def transfer : Value → Value
  | .integer id value => .integer (id + t.objects) value
  | .string id text => .string (id + t.objects) text
  | .array id elements => .array (id + t.objects) (transferAll elements)
  | .hash id entries => .hash (id + t.objects) (transferEntries entries)
  | .function id parameters body env =>
    .function (id + t.objects) parameters (body.relabel t.tokens) (env.transfer t)
  | .returning id value => .returning (id + t.objects) value.transfer
  | .error id fault => .error (id + t.objects) fault
  | value => value

def transferAll : List Value → List Value
  | [] => []
  | value :: rest => value.transfer :: transferAll rest

def transferEntries : List (HashKey × Value × Value) → List (HashKey × Value × Value)
  | [] => []
  | (hashKey, key, value) :: rest => (hashKey, key.transfer, value.transfer) :: transferEntries rest

end

end

/-! ### What a transfer keeps -/

section

variable (t : Transfer)

mutual

/-- To transfer a value is to renumber it. -/
theorem transfer_eq (value : Value) : value.transfer t = value.renumber t.renumbering := by
  cases value with
  | array _ elements => simp only [transfer, renumber, transferAll_eq_renumberAll elements]; rfl
  | hash _ entries => simp only [transfer, renumber, transferEntries_eq_renumberEntries entries]; rfl
  | returning _ value => simp only [transfer, renumber, transfer_eq value]; rfl
  | null | boolean | builtin | integer | string | function | error => rfl

theorem transferAll_eq_renumberAll (values : List Value) :
    transferAll t values = renumberAll t.renumbering values := by
  match values with
  | [] => rfl
  | value :: rest => simp only [transferAll, renumberAll, transfer_eq value, transferAll_eq_renumberAll rest]

theorem transferEntries_eq_renumberEntries (entries : List (HashKey × Value × Value)) :
    transferEntries t entries = renumberEntries t.renumbering entries := by
  match entries with
  | [] => rfl
  | (_, key, value) :: rest =>
    simp only [transferEntries, renumberEntries, transfer_eq key, transfer_eq value,
      transferEntries_eq_renumberEntries rest]

end

end

/-- Different objects stay different. -/
theorem same_transfer (value other : Value) : (value.transfer t).same (other.transfer t) = value.same other := by
  rw [transfer_eq, transfer_eq, same_renumber]

/-- A value is shown without its tokens and its number. -/
theorem inspect_transfer (value : Value) : (value.transfer t).inspect = value.inspect := by
  rw [transfer_eq, inspect_renumber]

mutual

theorem transfer_id (value : Value) : value.transfer .id = value := by
  cases value with
  | array _ elements => simp only [transfer, transferAll_id elements, Transfer.id_objects, Nat.add_zero]
  | hash _ entries => simp only [transfer, transferEntries_id entries, Transfer.id_objects, Nat.add_zero]
  | function _ _ body env =>
    simp only [transfer, env.transfer_of_scopes (t := .id) rfl, Transfer.id_tokens, Node.relabel_id,
      Transfer.id_objects, Nat.add_zero]
  | returning _ value => simp only [transfer, transfer_id value, Transfer.id_objects, Nat.add_zero]
  | null | boolean | builtin | integer | string | error => rfl

theorem transferAll_id (values : List Value) : transferAll .id values = values := by
  match values with
  | [] => rfl
  | value :: rest => simp only [transferAll, transfer_id value, transferAll_id rest]

theorem transferEntries_id (entries : List (HashKey × Value × Value)) :
    transferEntries .id entries = entries := by
  match entries with
  | [] => rfl
  | (_, key, value) :: rest =>
    simp only [transferEntries, transfer_id key, transfer_id value, transferEntries_id rest]

end

end Value

theorem Assoc.mapValues_id (entries : List (String × Value)) :
    mapValues (Value.transfer .id) entries = entries := by
  rw [mapValues, funext Value.transfer_id]
  exact List.map_id' entries

end Monkey
