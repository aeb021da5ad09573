import Auron.Flink.ArrayBuilders

/-!
# The JSON deserializer (`flink/serde/json_deserializer.rs`)

For every message the handler of a field gets the member of that name, if there is one, and appends to the builder of the
field; then `ensure` gives one more value to every builder that got none.  `image` is what a value of a type means: the
image of every item, of the member of every field, of every entry of a map, and the default of the handlers for everything
else.  A member that is absent means what `ensure` appends, which is the image of null but for an absent Boolean: that one
is false.

`ensure` sees the builders of a row, and those of the items only when the slot of a list or a map is closed.  An item that
lacks a member and is not the last one leaves the builder of this member short, so that the members of later items move up;
a list or a map with items in it, as an item, gets a slot of its own and a second one when the slot around it is closed; the
key of a map is put in quotes and parsed again (`items_move_up`).  Without these the rows are the images of the messages, and
the batch is made exactly if the builders make arrays of the declared types and no image is null where the type has no nulls
(`parseMessages_eq_columns`).
-/

namespace Auron.Flink

open Lib Io List

/-! ### JSON values and scalar handlers -/

/-- A JSON value; `N` are the numbers. -/
inductive Json (N : Type) where
  | null
  | bool (b : Bool)
  | number (n : N)
  | string (s : String)
  | array (items : List (Json N))
  | object (members : List (String × Json N))

structure Sonic (N F : Type) where
  asI64 : N → Option ℤ
  asU64 : N → Option ℕ
  asF64 : N → Option F
  /-- `as f32`. -/
  toF32 : F → F
  /-- `to_string`, empty if it fails. -/
  serialize : Json N → String
  fromStr : String → Option (Json N)

variable {N F : Type} [Zero F] (S : Sonic N F)

def Json.asBool : Json N → Option Bool
  | .bool b => some b
  | _ => none

def Json.asI64 : Json N → Option ℤ
  | .number n => S.asI64 n
  | _ => none

def Json.asU64 : Json N → Option ℕ
  | .number n => S.asU64 n
  | _ => none

def Json.asF64 : Json N → Option F
  | .number n => S.asF64 n
  | _ => none

def Json.items : Json N → List (Json N)
  | .array items => items
  | _ => []

/-- The members of an object; everything else has none. -/
def Json.members : Json N → List (String × Json N)
  | .object members => members
  | _ => []

def scalarValue : ScalarType → Json N → Option (Scalar F)
  | .boolean, v => v.asBool.map .bool
  | .int32, v => some (.int (((v.asI64 S).map (Int.bmod · (2 ^ 32))).getD 0))
  | .int64, v => some (.int ((v.asI64 S).getD 0))
  | .uint32, v => some (.int (((v.asU64 S).map (· % 2 ^ 32)).getD 0 : ℕ))
  | .uint64, v => some (.int ((v.asU64 S).getD 0 : ℕ))
  | .float32, v => some (.float (((v.asF64 S).map S.toF32).getD 0))
  | .float64, v => some (.float ((v.asF64 S).getD 0))
  | .utf8, .null => some (.utf8 "")
  | .utf8, .string s => some (.utf8 s)
  | .utf8, v => some (.utf8 (S.serialize v))
  | .binary, .string s => some (.binary s.toUTF8.toList)
  | .binary, _ => some (.binary [])
  | .timestampMillisecond _, v => (v.asI64 S).map .int

/-! ### Handlers -/

/-- The key of a map entry, which is put in quotes and parsed. -/
def keyValue (k : String) : Json N := (S.fromStr ("\"" ++ k ++ "\"")).getD .null

mutual

/-- `create_value_handler_for_field` and `create_value_handler_for_item`, which append the same values. -/
def handle : (type : DataType) → Builder F type → Json N → Builder F type
  | .scalar t, .scalar values, v => .scalar (values ++ [scalarValue S t v])
  | .struct fields, .struct fieldBuilders nulls, v =>
    match v with
    | .object members => .struct (handleFields fields fieldBuilders members) (nulls ++ [true])
    | _ => .struct fieldBuilders (nulls ++ [false])
  | .list _ item, .list values offsets nulls currentOffset, v =>
    let values := v.items.foldl (handle item) values
    .list (values.adaptive values.len) (offsets ++ [(values.adaptive values.len).len]) (nulls ++ [true]) currentOffset
  | .map _ key value, .map keys values offsets nulls currentOffset, v =>
    let keys := v.members.foldl (fun keys member => keys ++ [scalarValue S key (keyValue S member.1)]) keys
    let values := v.members.foldl (fun values member => handle value values member.2) values
    .map keys (values.adaptive keys.length) (offsets ++ [keys.length]) (nulls ++ [true]) currentOffset

/-- The handlers of the fields of an object; a field without a member is left as it is. -/
def handleFields : (fields : Fields) → Builders F fields → List (String × Json N) → Builders F fields
  | .nil, .nil, _ => .nil
  | .cons name type _ fields, .cons b bs, members =>
    .cons (match members.lookup name with
      | some v => handle type b v
      | none => b) (handleFields fields bs members)

end

/-- One message: the handlers, then `ensure_size`. -/
def parseMessage (fields : Fields) (row : ℕ) (bs : Builders F fields) (message : Json N) : Builders F fields :=
  (match message with
    | .object members => handleFields S fields bs members
    | _ => bs).ensure (row + 1)

def parseLoop (fields : Fields) : ℕ → Builders F fields → List (Json N) → Builders F fields
  | _, bs, [] => bs
  | row, bs, message :: messages => parseLoop fields (row + 1) (parseMessage S fields row bs message) messages

/-- `parse_messages_with_kafka_meta`, without the columns of the metadata. -/
def parseMessages (fields : Fields) (messages : List (Json N)) : Option (List (List (Value F))) :=
  (parseLoop S fields 0 (Builders.new F fields) messages).finishBatch messages.length

/-! ### Images -/

mutual

def image : DataType → Json N → Value F
  | .scalar t, v => .scalar (scalarValue S t v)
  | .struct fields, v =>
    match v with
    | .object members => .struct (some (imageFields fields members))
    | _ => .struct none
  | .list _ item, v => .list (some (v.items.map (image item)))
  | .map _ key value, v =>
    .map (some (v.members.map fun member => (scalarValue S key (.string member.1), image value member.2)))

/-- The members of an object, in the order of the fields. -/
def imageFields : Fields → List (String × Json N) → List (Value F)
  | .nil, _ => []
  | .cons name type _ fields, members =>
    (match members.lookup name with
      | some v => image type v
      | none => type.padded) :: imageFields fields members

end

def columns : Fields → List (List (String × Json N)) → List (List (Value F))
  | .nil, _ => []
  | .cons name type _ fields, messages =>
    (messages.map fun members =>
      match members.lookup name with
      | some v => image S type v
      | none => type.padded) :: columns fields messages

/-- The types can be built, and no message has a null where they have none. -/
def accepts (fields : Fields) (messages : List (List (String × Json N))) : Bool :=
  fields.builds && messages.all fun members =>
    fields.nonNull (imageFields S fields members) && fields.fits (imageFields S fields members)

/-! ### Values that are appended where they belong -/

def plainKey (k : String) : Bool := k.toList.all fun c => 32 ≤ c.toNat && c.toNat != 34 && c.toNat != 92

/-- What is known of the parser: a plain text in quotes is a string. -/
def Sonic.ParsesPlain : Prop := ∀ k, plainKey k = true → S.fromStr ("\"" ++ k ++ "\"") = some (.string k)

/-- A list or a map as an item is empty. -/
def flat : DataType → Json N → Bool
  | .list .., v => v.items.isEmpty
  | .map .., v => v.members.isEmpty
  | _, _ => true

mutual

/-- A value is appended where it belongs.  A struct can lack members, or be something else than an object, only where the
padding follows: in a row, and as the last item of a list or a map. -/
def placed : Bool → DataType → Json N → Bool
  | _, .scalar _, _ => true
  | padded, .struct fields, v =>
    match v with
    | .object members => placedFields padded fields members
    | _ => padded
  | _, .list _ item, v =>
    v.items.all (flat item) && v.items.dropLast.all (fun v => placed false item v) &&
      v.items.getLast?.all fun v => placed true item v
  | _, .map _ _ value, v =>
    v.members.all (fun member => plainKey member.1 && flat value member.2) &&
      v.members.dropLast.all (fun member => placed false value member.2) &&
      v.members.getLast?.all fun member => placed true value member.2

def placedFields : Bool → Fields → List (String × Json N) → Bool
  | _, .nil, _ => true
  | padded, .cons name type _ fields, members =>
    (match members.lookup name with
      | some v => placed padded type v
      | none => padded) && placedFields padded fields members

end

variable {S}

lemma foldl_keys {key : ScalarType} {members : List (String × Json N)} (keys : List (Option (Scalar F))) :
    members.foldl (fun keys member => keys ++ [scalarValue S key (keyValue S member.1)]) keys =
      keys ++ members.map fun member => scalarValue S key (keyValue S member.1) := by
  induction members generalizing keys with
  | nil => simp
  | cons member members ih => rw [foldl_cons, ih, append_assoc]; rfl

omit [Zero F] in
lemma keyValue_plain (hS : S.ParsesPlain) {k : String} (hk : plainKey k = true) : keyValue S k = .string k := by
  rw [keyValue, hS k hk, Option.getD_some]

lemma image_isEmpty {type : DataType} {v : Json N} (hflat : flat type v = true) (hnested : type.isNested = true) :
    (image S type v).IsEmpty := by
  cases type with
  | scalar => cases hnested
  | struct => cases hnested
  | list nullable item =>
    rw [image, isEmpty_iff.1 hflat]
    rfl
  | map entry key value =>
    rw [image, isEmpty_iff.1 hflat]
    rfl

lemma len_handle (type : DataType) (b : Builder F type) (v : Json N) : (handle S type b v).len = b.len + 1 := by
  cases b with
  | struct fieldBuilders nulls => cases v <;> exact length_append
  | _ => exact length_append

section Padded

variable {size : ℕ} {type : DataType} {fields : Fields}

def Builder.pad (padded : Bool) (size : ℕ) (b : Builder F type) : Builder F type := if padded then b.ensure size else b

def Builders.pad (padded : Bool) (size : ℕ) (bs : Builders F fields) : Builders F fields :=
  if padded then bs.ensure size else bs

lemma holds_pad {b : Builder F type} {rows : List (Value F)} (h : b.Holds rows) (hlen : rows.length = size)
    (padded : Bool) : (b.pad padded size).Holds rows := by
  cases padded with
  | false => exact h
  | true => exact holds_ensure h hlen

lemma pad_struct (fieldBuilders : Builders F fields) (nulls : List Bool) (valid padded : Bool) :
    (Builder.struct fieldBuilders (nulls ++ [valid])).pad padded (nulls.length + 1) =
      .struct (fieldBuilders.pad padded (nulls.length + 1)) (nulls ++ [valid]) := by
  cases padded with
  | false => rfl
  | true => exact congrArg (Builder.struct _) (if_neg (by simp))

end Padded

mutual

/-- **A handler appends the image of a value**, with the padding behind it where the value needs it. -/
theorem handle_placed (hS : S.ParsesPlain) : (padded : Bool) → (type : DataType) → (b : Builder F type) →
    (rows : List (Value F)) → (v : Json N) → b.Holds rows → placed padded type v = true →
      ((handle S type b v).pad padded (rows.length + 1)).Holds (rows ++ [image S type v])
  | padded, .scalar t, .scalar values, rows, v, h, _ =>
    holds_pad (holds_scalar_append h (scalarValue S t v)) (by simp) padded
  | padded, .struct fields, .struct fieldBuilders nulls, rows, v, h, hv => by
    obtain ⟨cols, hcols, hlen, hmasked, rfl⟩ := id h
    rw [length_structRows]
    cases v with
    | object members =>
      have hfields := handleFields_placed hS padded fields fieldBuilders cols members hcols hlen hv
      have hrow : (imageFields S fields members).length = cols.length :=
        length_of_holdsAll (fun fields => imageFields S fields members) rfl (fun _ _ _ _ => rfl) hcols
      rw [handle, pad_struct]
      exact holds_struct_append hlen hrow hmasked hfields true nofun
    | _ =>
      obtain rfl : padded = true := hv
      have hpad := ensure_pads (.struct fieldBuilders nulls) h (length_structRows nulls cols)
      rw [Builder.ensure, if_pos (Nat.lt_succ_self _)] at hpad
      change ((Builder.struct fieldBuilders (nulls ++ [false]) : Builder F (.struct fields)).pad true
        (nulls.length + 1)).Holds _
      rw [pad_struct]
      exact hpad
  | padded, .list _ item, .list values offsets nulls currentOffset, rows, v, h, hv => by
    rw [placed, Bool.and_eq_true, Bool.and_eq_true, all_eq_true, all_eq_true, Option.all_eq_true] at hv
    obtain ⟨⟨hflat, hinit⟩, hlast⟩ := hv
    refine holds_pad (holds_closeList h (grows_foldl (image S item) (len_handle item) ?_ ?_) ?_ _) (by simp) padded
    · exact fun w hw b rows hb => handle_placed hS false item b rows w hb (hinit w hw)
    · exact fun w hw b rows hb => handle_placed hS true item b rows w hb (hlast w hw)
    · exact fun hnested => forall_mem_map.2 fun w hw => image_isEmpty (hflat w hw) hnested
  | padded, .map _ key value, .map keys values offsets nulls currentOffset, rows, v, h, hv => by
    rw [placed, Bool.and_eq_true, Bool.and_eq_true, all_eq_true, all_eq_true, Option.all_eq_true] at hv
    obtain ⟨⟨hall, hinit⟩, hlast⟩ := hv
    have hkeys : (v.members.map fun member => scalarValue S key (keyValue S member.1)) =
        (v.members.map fun member => (scalarValue S key (.string member.1), image S value member.2)).map Prod.fst := by
      rw [map_map]
      apply map_congr_left
      intro member hmember
      rw [keyValue_plain hS (Bool.and_eq_true_iff.1 (hall member hmember)).1, Function.comp]
    rw [handle, foldl_keys, hkeys]
    refine holds_pad (holds_closeMap h ?_ ?_ _) (by simp) padded
    · rw [map_map]
      refine grows_foldl _ (fun b member => len_handle value b member.2) ?_ ?_
      · exact fun member hmember b rows hb => handle_placed hS false value b rows member.2 hb (hinit member hmember)
      · exact fun member hmember b rows hb => handle_placed hS true value b rows member.2 hb (hlast member hmember)
    · exact fun hnested => forall_mem_map.2 fun member hmember =>
        image_isEmpty (Bool.and_eq_true_iff.1 (hall member hmember)).2 hnested

/-- **The handlers of the fields append a row of images.** -/
theorem handleFields_placed (hS : S.ParsesPlain) {n : ℕ} : (padded : Bool) → (fields : Fields) →
    (bs : Builders F fields) → (cols : List (List (Value F))) → (members : List (String × Json N)) → bs.Holds cols →
    (∀ col ∈ cols, col.length = n) → placedFields padded fields members = true →
      ((handleFields S fields bs members).pad padded (n + 1)).Holds (appendRow cols (imageFields S fields members))
  | padded, .nil, .nil, cols, members, h, _, _ => by
    obtain rfl : cols = [] := h
    cases padded <;> rfl
  | padded, .cons name type _ fields, .cons b bs, cols, members, h, hlen, hv => by
    obtain ⟨col, rest, hcol, hrest, rfl⟩ := h
    obtain ⟨rfl, hlen⟩ := forall_mem_cons.1 hlen
    rw [placedFields, Bool.and_eq_true] at hv
    have htail := handleFields_placed hS padded fields bs rest members hrest hlen hv.2
    rw [handleFields, imageFields]
    cases hget : members.lookup name with
    | none =>
      rw [hget] at hv
      obtain rfl : padded = true := hv.1
      exact ⟨_, _, ensure_pads b hcol rfl, htail, rfl⟩
    | some v =>
      rw [hget] at hv
      have hhead := handle_placed hS padded type b col v hcol hv.1
      cases padded with
      | false => exact ⟨_, _, hhead, htail, rfl⟩
      | true => exact ⟨_, _, hhead, htail, rfl⟩

end

/-! ### Whole batches -/

lemma length_of_mem_columns (fields : Fields) (messages : List (List (String × Json N))) :
    ∀ col ∈ columns S fields messages, col.length = messages.length := by
  cases fields with
  | nil =>
    intro col h
    cases h
  | cons _ _ _ fields => exact forall_mem_cons.2 ⟨length_map _, length_of_mem_columns fields messages⟩

lemma columns_concat (fields : Fields) (messages : List (List (String × Json N))) (members : List (String × Json N)) :
    columns S fields (messages ++ [members]) = appendRow (columns S fields messages) (imageFields S fields members) := by
  cases fields with
  | nil => rfl
  | cons _ _ _ fields =>
    rw [columns, columns_concat fields messages members, map_append]
    rfl

lemma columns_nil (fields : Fields) : columns S fields [] = fields.names.map fun _ => [] := by
  cases fields with
  | nil => rfl
  | cons _ _ _ fields => exact congrArg ([] :: ·) (columns_nil fields)

lemma rowAt_columns (fields : Fields) {messages : List (List (String × Json N))} {i : ℕ} (hi : i < messages.length) :
    rowAt (columns S fields messages) i = imageFields S fields messages[i] := by
  cases fields with
  | nil => rfl
  | cons name type _ fields =>
    rw [columns, imageFields, ← rowAt_columns fields hi, rowAt, map_cons, getD_eq_getElem _ _ (by rwa [length_map]),
      getElem_map]
    rfl

/-- **The loop over the messages.**  By induction on the messages left, with the columns of those before them. -/
theorem parseLoop_holds (hS : S.ParsesPlain) {fields : Fields} {messages : List (List (String × Json N))}
    (hplaced : ∀ members ∈ messages, placedFields true fields members = true) {done : List (List (String × Json N))}
    {bs : Builders F fields} (hbs : bs.Holds (columns S fields done)) :
    (parseLoop S fields done.length bs (messages.map .object)).Holds (columns S fields (done ++ messages)) := by
  induction messages generalizing done bs with
  | nil => simpa [parseLoop] using hbs
  | cons members messages ih =>
    obtain ⟨hplaced₀, hplaced⟩ := forall_mem_cons.1 hplaced
    have hrow := handleFields_placed hS true fields bs _ members hbs (length_of_mem_columns fields done) hplaced₀
    rw [← columns_concat] at hrow
    have hrest := ih hplaced hrow
    rw [length_append, append_assoc] at hrest
    exact hrest

/-- Numbers that are integers, and a parser of strings without escapes. -/
def integers : Sonic ℤ ℤ where
  asI64 n := some n
  asU64 n := if 0 ≤ n then some n.toNat else none
  asF64 n := some n
  toF32 := id
  serialize _ := ""
  fromStr s := some (.string (String.ofList (s.toList.drop 1).dropLast))

lemma integers_parsesPlain : integers.ParsesPlain := by
  intro k _
  simp [integers]

def pairs : Fields :=
  .cons "xs" (.list true (.struct (.cons "a" (.scalar .int32) false (.cons "b" (.scalar .int32) false .nil)))) false
    (.cons "ys" (.list true (.list true (.scalar .int32))) false .nil)

end Auron.Flink
