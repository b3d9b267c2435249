import Boole.Library.Fallible
import Boole.Library.Reader

/-!
# Library/Rlp — recursive length-prefix encoding

A string of bytes or a list of items, each behind a header that gives its length: one byte for short
payloads, and the number of length bytes and the length otherwise.  **A parser that returned has read
the encoding of a tree, and every encoding of a shallow tree is read** (`parse_eq_ok`):

    bytes ──parse──▸ items with their spans  =  a tree, placed where its encoding starts
-/

namespace Library.Rlp

/-! ## Encoding -/

/-- The bytes of a number of at most `n` bytes, without leading zeros. -/
def minimal (n x : ℕ) : List UInt8 := (beBytes n x).dropWhile (· = 0)

/-- A header with the length of the payload, and the payload. -/
def wrap (value : List UInt8) (base : UInt8) : List UInt8 :=
  if value.length < 56 then (base + UInt8.ofNat value.length) :: value
  else
    let size := minimal 8 value.length
    (base + 55 + UInt8.ofNat size.length) :: (size ++ value)

/-- A string of bytes. -/
def bytes (value : List UInt8) : List UInt8 :=
  if value.length = 1 ∧ value.all (· < 0x80) then value else wrap value 0x80

/-- A list of items that are encoded already. -/
def list (encoded : List (List UInt8)) : List UInt8 := wrap encoded.flatten 0xc0

/-- A number of at most eight bytes. -/
def uint (value : ℕ) : List UInt8 := bytes (minimal 8 value)

/-! ## Decoding -/

/-- A decoded item: where it starts and stops, its payload, and the items in it when it is a list. -/
inductive Item
  | string (start stop : ℕ) (payload : List UInt8)
  | list (start stop : ℕ) (payload : List UInt8) (items : List Item)

namespace Item

def start : Item → ℕ
  | string start _ _ => start
  | list start _ _ _ => start

def stop : Item → ℕ
  | string _ stop _ => stop
  | list _ stop _ _ => stop

def payload : Item → List UInt8
  | string _ _ payload => payload
  | list _ _ payload _ => payload

def children : Item → Option (List Item)
  | string .. => none
  | list _ _ _ items => some items

end Item

/-- The first tag of the strings, or of the lists. -/
def kind (tag : UInt8) : UInt8 := if 0xc0 ≤ tag then 0xc0 else 0x80

/-- The length behind a tag, and what follows it. -/
def size (short : ℕ) (rest : List UInt8) : Except String (ℕ × List UInt8) :=
  if short ≤ 55 then pure (short, rest)
  else do
    let digits := rest.take (short - 55)
    ensure (short - 55 ≤ rest.length ∧ digits.head? ≠ some 0) "noncanonical or short length"
    ensure (56 ≤ ofBytes digits) "noncanonical long form"
    pure (ofBytes digits, rest.drop (short - 55))

/-- The payload behind a tag: where it starts, what it is, and what follows it. -/
def frame (start : ℕ) (tag : UInt8) (rest : List UInt8) :
    Except String (ℕ × List UInt8 × List UInt8) := do
  let (length, body) ← size (tag.toNat - (kind tag).toNat) rest
  let offset := start + 1 + (rest.length - body.length)
  ensure (offset + length < 2 ^ 64) "length overflow"
  ensure (length ≤ body.length) "short payload"
  pure (offset, body.take length, body.drop length)

/-- Items one after another, up to the end of the input. -/
def parseAll (one : ℕ → List UInt8 → Except String (Item × List UInt8)) :
    ℕ → ℕ → List UInt8 → Except String (List Item)
  | _, _, [] => pure []
  | 0, _, _ :: _ => .error "RLP depth or short input"
  | fuel + 1, start, b => do
    let (x, rest) ← one start b
    let xs ← parseAll one fuel x.stop rest
    pure (x :: xs)

/-- One item at an offset, with items in it down to a depth, and what follows it. -/
def parse : ℕ → ℕ → List UInt8 → Except String (Item × List UInt8)
  | 0, _, _ => .error "RLP depth or short input"
  | _ + 1, _, [] => .error "RLP depth or short input"
  | depth + 1, start, tag :: rest => do
    ensure (start + 1 < 2 ^ 64) "offset overflow"
    if tag < 0x80 then pure (.string start (start + 1) [tag], rest)
    else
      let (offset, payload, rest) ← frame start tag rest
      let stop := offset + payload.length
      if kind tag = 0xc0 then
        let items ← parseAll (parse depth) payload.length offset payload
        pure (.list start stop payload items, rest)
      else
        ensure (¬(payload.length = 1 ∧ payload.all (· < 0x80))) "noncanonical single byte"
        pure (.string start stop payload, rest)

/-- One item that is the whole input. -/
def decode (b : List UInt8) : Except String Item := do
  let (x, rest) ← parse 9 0 b
  ensure (rest = []) "trailing bytes"
  pure x

/-! ## Headers -/

/-- The bytes of a length that does not fit in the tag. -/
def digits (n : ℕ) : List UInt8 := if n < 56 then [] else minimal 8 n

/-- What the tag says of a length: the length, or how many bytes it has. -/
def short (n : ℕ) : ℕ := if n < 56 then n else 55 + (minimal 8 n).length

/-- What stands before a payload. -/
def header (n : ℕ) (base : UInt8) : List UInt8 := (base + UInt8.ofNat (short n)) :: digits n

theorem wrap_eq (value : List UInt8) (base : UInt8) :
    wrap value base = header value.length base ++ value := by
  unfold wrap header short digits
  split
  · rfl
  · rw [UInt8.ofNat_add, ← UInt8.add_assoc]
    rfl

theorem ofBytes_dropWhile (l : List UInt8) : ofBytes (l.dropWhile (· = 0)) = ofBytes l := by
  induction l with
  | nil => rfl
  | cons b l ih =>
    rw [List.dropWhile_cons]
    split_ifs with hb
    · obtain rfl : b = 0 := by simpa using hb
      rw [ih]
      rfl
    · rfl

theorem ofBytes_minimal {n x : ℕ} (hx : x < 256 ^ n) : ofBytes (minimal n x) = x := by
  rw [minimal, ofBytes_dropWhile, ofBytes_beBytes hx]

theorem length_minimal_le (n x : ℕ) : (minimal n x).length ≤ n :=
  Nat.le_trans (List.dropWhile_sublist _).length_le (Nat.le_of_eq (length_beBytes n x))

theorem head?_minimal (n x : ℕ) : (minimal n x).head? ≠ some 0 := by
  intro h
  have := List.head?_dropWhile_not (fun b : UInt8 => decide (b = 0)) (beBytes n x)
  rw [show (beBytes n x).dropWhile (fun b => decide (b = 0)) = minimal n x from rfl, h] at this
  simp at this

/-- Digits without a leading zero are the minimal ones. -/
theorem minimal_ofBytes {n : ℕ} {digits : List UInt8} (hlen : digits.length ≤ n)
    (hhead : digits.head? ≠ some 0) : minimal n (ofBytes digits) = digits := by
  have hzeros : ofBytes (List.replicate (n - digits.length) 0 ++ digits) = ofBytes digits := by
    induction n - digits.length with
    | zero => rfl
    | succ k ih => exact ih
  have hlength : (List.replicate (n - digits.length) 0 ++ digits).length = n := by
    simp only [List.length_append, List.length_replicate]
    omega
  have hbytes := beBytes_ofBytes (List.replicate (n - digits.length) 0 ++ digits)
  rw [hlength, hzeros] at hbytes
  rw [minimal, hbytes, List.dropWhile_append_of_pos (by simp)]
  cases digits with
  | nil => rfl
  | cons d digits => exact List.dropWhile_cons_of_neg (by simpa using hhead)

/-- **A length is read off its own bytes, and off nothing else.** -/
theorem size_eq_ok {k n : ℕ} (hk : k ≤ 63) {rest body : List UInt8} :
    size k rest = .ok (n, body) ↔ n < 2 ^ 64 ∧ k = short n ∧ rest = digits n ++ body := by
  have hlen := length_minimal_le 8 n
  have hpos (hn : 56 ≤ n) (hlt : n < 2 ^ 64) : 0 < (minimal 8 n).length := by
    refine List.length_pos_iff.mpr fun hnil => ?_
    have hzero : ofBytes (minimal 8 n) = n := ofBytes_minimal hlt
    rw [hnil] at hzero
    exact absurd hn (hzero ▸ by decide)
  unfold size short digits
  constructor
  · intro h
    split_ifs at h with hshort
    · obtain ⟨rfl, rfl⟩ := Prod.mk.inj (Except.ok.inj h)
      rw [if_pos (by omega), if_pos (by omega)]
      exact ⟨by omega, rfl, rfl⟩
    · simp only [bind_eq_ok, ensure_eq_ok, pure_eq_ok, Prod.mk.injEq] at h
      obtain ⟨_, ⟨hrest, hhead⟩, _, hn, rfl, rfl⟩ := h
      have hdigits : (rest.take (k - 55)).length = k - 55 := List.length_take_of_le hrest
      have hlt := hdigits ▸ ofBytes_lt (rest.take (k - 55))
      rw [if_neg (by omega), if_neg (by omega), minimal_ofBytes (by omega) hhead, hdigits,
        List.take_append_drop]
      have hpow : 256 ^ (k - 55) ≤ 256 ^ 8 := Nat.pow_le_pow_right (by decide) (by omega)
      exact ⟨Nat.lt_of_lt_of_le hlt hpow, by omega, rfl⟩
  · rintro ⟨hlt, hk', rfl⟩
    split_ifs at hk' ⊢ with hn hshort hshort
    · rw [hk']
      rfl
    · omega
    · have := hpos (by omega) hlt
      omega
    · subst hk'
      simp only [bind_eq_ok, ensure_eq_ok, pure_eq_ok, Nat.add_sub_cancel_left, List.take_left,
        List.drop_left, ofBytes_minimal (n := 8) hlt]
      exact ⟨(), ⟨by simp, head?_minimal 8 n⟩, (), by omega, trivial⟩

theorem kind_cases (tag : UInt8) : kind tag = 0x80 ∨ kind tag = 0xc0 := by
  unfold kind
  split
  · exact .inr rfl
  · exact .inl rfl

theorem kind_iff {tag base : UInt8} (hbase : base = 0x80 ∨ base = 0xc0) :
    ¬tag < 0x80 ∧ kind tag = base ↔ base.toNat ≤ tag.toNat ∧ tag.toNat ≤ base.toNat + 63 := by
  have htag := tag.toNat_lt
  have h80 : (0x80 : UInt8).toNat = 128 := rfl
  have hc0 : (0xc0 : UInt8).toNat = 192 := rfl
  rw [UInt8.lt_iff_toNat_lt]
  by_cases hlist : 0xc0 ≤ tag
  all_goals
    simp only [kind, hlist, if_true, if_false]
    rw [UInt8.le_iff_toNat_le] at hlist
    rcases hbase with rfl | rfl <;> simp <;> omega

/-- **A header is a tag of its kind, and a length that is read off it.** -/
theorem header_append_iff {tag base : UInt8} {n : ℕ} {b body : List UInt8}
    (hbase : base = 0x80 ∨ base = 0xc0) : n < 2 ^ 64 ∧ tag :: b = header n base ++ body ↔
      (¬tag < 0x80 ∧ kind tag = base) ∧ size (tag.toNat - base.toNat) b = .ok (n, body) := by
  have hshort : short n ≤ 63 := by
    have hlen := length_minimal_le 8 n
    unfold short
    split <;> omega
  have hle : base.toNat ≤ 192 := by rcases hbase with rfl | rfl <;> decide
  rw [kind_iff hbase, header, List.cons_append, List.cons.injEq, ← UInt8.toNat_inj,
    UInt8.toNat_add, UInt8.toNat_ofNat']
  constructor
  · rintro ⟨hn, htag, hb⟩
    exact ⟨by omega, (size_eq_ok (by omega)).mpr ⟨hn, by omega, hb⟩⟩
  · rintro ⟨hbounds, hsize⟩
    obtain ⟨hn, hk, hb⟩ := (size_eq_ok (by omega)).mp hsize
    exact ⟨hn, by omega, hb⟩

/-- **A payload is read behind its header, and behind nothing else.** -/
theorem frame_eq_ok {start offset : ℕ} {tag : UInt8} {b payload rest : List UInt8}
    (hlow : ¬tag < 0x80) : frame start tag b = .ok (offset, payload, rest) ↔
      start + (wrap payload (kind tag)).length < 2 ^ 64 ∧
      tag :: b = wrap payload (kind tag) ++ rest ∧
      offset = start + (header payload.length (kind tag)).length := by
  have hoffset {n : ℕ} {body : List UInt8} (hb : tag :: b = header n (kind tag) ++ body) :
      start + 1 + (b.length - body.length) = start + (header n (kind tag)).length := by
    have := congrArg List.length hb
    simp only [List.length_cons, List.length_append, header] at this ⊢
    omega
  simp only [frame, bind_eq_ok, ensure_eq_ok, pure_eq_ok, Prod.exists, Prod.mk.injEq, wrap_eq,
    List.length_append, List.append_assoc, ← Nat.add_assoc]
  constructor
  · rintro ⟨n, body, hsize, _, hfits, _, hle, rfl, rfl, rfl⟩
    obtain ⟨-, hb⟩ := (header_append_iff (kind_cases tag)).mpr ⟨⟨hlow, rfl⟩, hsize⟩
    rw [hoffset hb] at hfits ⊢
    rw [List.length_take_of_le hle, List.take_append_drop]
    exact ⟨hfits, hb, rfl⟩
  · rintro ⟨hfits, hb, rfl⟩
    obtain ⟨-, hsize⟩ := (header_append_iff (kind_cases tag)).mp ⟨by omega, hb⟩
    exact ⟨_, _, hsize, (), by rwa [hoffset hb], (), by simp, hoffset hb, List.take_left, List.drop_left⟩

/-- The tag before a payload is of its kind. -/
theorem kind_of_wrap {tag base : UInt8} {b payload rest : List UInt8}
    (hbase : base = 0x80 ∨ base = 0xc0) (hfits : payload.length < 2 ^ 64)
    (h : tag :: b = wrap payload base ++ rest) : ¬tag < 0x80 ∧ kind tag = base := by
  rw [wrap_eq, List.append_assoc] at h
  exact ((header_append_iff hbase).mp ⟨hfits, h⟩).1

/-! ## Trees -/

/-- What is encoded. -/
inductive Tree
  | string (value : List UInt8)
  | list (items : List Tree)

mutual

/-- The encoding of a tree, built with `bytes` and `list`. -/
def Tree.encode : Tree → List UInt8
  | .string value => bytes value
  | .list items => list (encodeAll items)

def encodeAll : List Tree → List (List UInt8)
  | [] => []
  | t :: ts => t.encode :: encodeAll ts

end

mutual

/-- The number of levels of a tree. -/
def Tree.height : Tree → ℕ
  | .string _ => 1
  | .list items => heightAll items + 1

def heightAll : List Tree → ℕ
  | [] => 0
  | t :: ts => max t.height (heightAll ts)

end

mutual

/-- The tree of a decoded item. -/
def Item.tree : Item → Tree
  | .string _ _ payload => .string payload
  | .list _ _ _ items => .list (treeAll items)

def treeAll : List Item → List Tree
  | [] => []
  | x :: xs => x.tree :: treeAll xs

end

mutual

/-- A decoded item and the items in it. -/
def Item.parts : Item → List Item
  | .string start stop payload => [.string start stop payload]
  | .list start stop payload items => .list start stop payload items :: partsAll items

def partsAll : List Item → List Item
  | [] => []
  | x :: xs => x.parts ++ partsAll xs

end

mutual

/-- A tree as the item that its encoding is, where the encoding starts. -/
def Tree.item (start : ℕ) : Tree → Item
  | .string value => .string start (start + (bytes value).length) value
  | .list items =>
    let payload := (encodeAll items).flatten
    .list start (start + (wrap payload 0xc0).length) payload
      (itemAll (start + (header payload.length 0xc0).length) items)

def itemAll (start : ℕ) : List Tree → List Item
  | [] => []
  | t :: ts => t.item start :: itemAll (start + t.encode.length) ts

end

/-- An item is where it says, and it is what stands there. -/
def Spans (raw : List UInt8) (x : Item) : Prop :=
  x.start ≤ x.stop ∧ x.stop ≤ raw.length ∧ (raw.take x.stop).drop x.start = x.tree.encode

@[simp] theorem Tree.item_stop (start : ℕ) (t : Tree) :
    (t.item start).stop = start + t.encode.length := by
  cases t <;> rfl

mutual

theorem Tree.tree_item (start : ℕ) (t : Tree) : (t.item start).tree = t := by
  cases t with
  | string value => rfl
  | list items => exact congrArg Tree.list (treeAll_itemAll _ items)

theorem treeAll_itemAll (start : ℕ) (ts : List Tree) : treeAll (itemAll start ts) = ts := by
  cases ts with
  | nil => rfl
  | cons t ts => exact congrArg₂ List.cons (t.tree_item start) (treeAll_itemAll _ ts)

end

theorem Tree.spans_self (pre post : List UInt8) (t : Tree) :
    Spans (pre ++ t.encode ++ post) (t.item pre.length) := by
  have hstart : (t.item pre.length).start = pre.length := by cases t <;> rfl
  rw [Spans, hstart, t.item_stop, t.tree_item, ← List.length_append, List.take_left, List.drop_left]
  simp

mutual

/-- **Every item of a placed tree stands where it says.** -/
theorem Tree.spans (pre post : List UInt8) (t : Tree) :
    ∀ x ∈ (t.item pre.length).parts, Spans (pre ++ t.encode ++ post) x := by
  cases t with
  | string value => exact List.forall_mem_singleton.mpr ((Tree.string value).spans_self pre post)
  | list items =>
    refine List.forall_mem_cons.mpr ⟨(Tree.list items).spans_self pre post, fun x hx => ?_⟩
    have hitems := spans_itemAll (pre ++ header (encodeAll items).flatten.length 0xc0) post items x
    rw [List.length_append] at hitems
    simpa only [Tree.encode, list, wrap_eq, List.append_assoc] using hitems hx

theorem spans_itemAll (pre post : List UInt8) (ts : List Tree) :
    ∀ x ∈ partsAll (itemAll pre.length ts), Spans (pre ++ (encodeAll ts).flatten ++ post) x := by
  cases ts with
  | nil => exact fun x hx => by cases hx
  | cons t ts =>
    intro x hx
    have hflat : pre ++ (encodeAll (t :: ts)).flatten ++ post =
        pre ++ t.encode ++ ((encodeAll ts).flatten ++ post) := by
      simp [encodeAll]
    rw [hflat]
    rcases List.mem_append.mp hx with hx | hx
    · exact t.spans pre _ x hx
    · rw [← List.append_assoc]
      exact spans_itemAll (pre ++ t.encode) post ts x (by rwa [List.length_append])

end

/-! ## What is read is what was encoded -/

theorem Tree.encode_ne_nil (t : Tree) : t.encode ≠ [] := by
  cases t with
  | string value =>
    rw [Tree.encode, bytes, wrap_eq, header]
    split_ifs with hone
    · rintro rfl
      cases hone.1
    · simp
  | list items => simp [Tree.encode, Rlp.list, wrap_eq, header]

theorem parseAll_nil {one : ℕ → List UInt8 → Except String (Item × List UInt8)} {d : ℕ}
    {xs : List Item} (fuel start : ℕ) : parseAll one fuel start [] = .ok xs ↔
      ∃ ts, heightAll ts ≤ d ∧ [] = (encodeAll ts).flatten ∧ xs = itemAll start ts := by
  rw [parseAll, pure_eq_ok]
  constructor
  · rintro rfl
    exact ⟨[], Nat.zero_le d, rfl, rfl⟩
  · rintro ⟨ts, -, hts, rfl⟩
    cases ts with
    | nil => rfl
    | cons t ts => exact absurd (List.append_eq_nil_iff.mp hts.symm).1 t.encode_ne_nil

/-- Items one after another are read if each is. -/
theorem parseAll_eq_ok {one : ℕ → List UInt8 → Except String (Item × List UInt8)} {d : ℕ}
    (hone : ∀ start b x rest, one start b = .ok (x, rest) ↔ ∃ t : Tree, t.height ≤ d ∧
      start + t.encode.length < 2 ^ 64 ∧ b = t.encode ++ rest ∧ x = t.item start)
    {fuel start : ℕ} {b : List UInt8} {xs : List Item} (hfuel : b.length ≤ fuel)
    (hfits : start + b.length < 2 ^ 64) : parseAll one fuel start b = .ok xs ↔
      ∃ ts, heightAll ts ≤ d ∧ b = (encodeAll ts).flatten ∧ xs = itemAll start ts := by
  induction fuel generalizing start b xs with
  | zero =>
    obtain rfl : b = [] := List.eq_nil_of_length_eq_zero (Nat.le_zero.mp hfuel)
    exact parseAll_nil _ _
  | succ fuel ih =>
    cases b with
    | nil => exact parseAll_nil _ _
    | cons c b =>
      simp only [parseAll, bind_eq_ok, pure_eq_ok, Prod.exists, hone]
      constructor
      · rintro ⟨_, rest, ⟨t, hheight, -, hb, rfl⟩, xs, hxs, rfl⟩
        have hlength := congrArg List.length hb
        have hpos := List.length_pos_iff.mpr t.encode_ne_nil
        simp only [List.length_append] at hlength
        rw [Tree.item_stop, ih (by omega) (by omega)] at hxs
        obtain ⟨ts, hheights, rfl, rfl⟩ := hxs
        exact ⟨t :: ts, Nat.max_le.mpr ⟨hheight, hheights⟩, hb, rfl⟩
      · rintro ⟨ts, hheights, hb, rfl⟩
        cases ts with
        | nil => cases hb
        | cons t ts =>
          obtain ⟨hheight, hheights⟩ := Nat.max_le.mp hheights
          have hlength : (c :: b).length = t.encode.length + (encodeAll ts).flatten.length := by
            rw [hb, ← List.length_append]
            rfl
          have hpos := List.length_pos_iff.mpr t.encode_ne_nil
          refine ⟨_, _, ⟨t, hheight, by omega, hb, rfl⟩, _, ?_, rfl⟩
          rw [Tree.item_stop]
          exact (ih (by omega) (by omega)).mpr ⟨ts, hheights, rfl, rfl⟩

/-- **A parser that returned has read the encoding of a tree that is not too deep, and it reads every
such encoding.** -/
theorem parse_eq_ok {depth start : ℕ} {b rest : List UInt8} {x : Item} :
    parse depth start b = .ok (x, rest) ↔ ∃ t : Tree, t.height ≤ depth ∧
      start + t.encode.length < 2 ^ 64 ∧ b = t.encode ++ rest ∧ x = t.item start := by
  induction depth generalizing start b x rest with
  | zero =>
    refine iff_of_false (by simp [parse]) ?_
    rintro ⟨t, hheight, -⟩
    cases t <;> cases hheight
  | succ depth ih =>
    cases b with
    | nil =>
      refine iff_of_false (by simp [parse]) ?_
      rintro ⟨t, -, -, hb, -⟩
      exact t.encode_ne_nil (List.append_eq_nil_iff.mp hb.symm).1
    | cons tag b =>
      simp only [parse, bind_eq_ok, ensure_eq_ok]
      constructor
      · rintro ⟨_, hstart, h⟩
        by_cases hlow : tag < 0x80
        · rw [if_pos hlow] at h
          obtain ⟨rfl, rfl⟩ := Prod.mk.inj (Except.ok.inj h)
          have hone : bytes [tag] = [tag] := if_pos ⟨rfl, by simpa using hlow⟩
          exact ⟨.string [tag], Nat.le_add_left 1 depth, by simpa [Tree.encode, hone] using hstart,
            by simp [Tree.encode, hone], by simp [Tree.item, hone]⟩
        · rw [if_neg hlow] at h
          simp only [bind_eq_ok, Prod.exists, frame_eq_ok hlow] at h
          obtain ⟨_, payload, rest, ⟨hfits, hb, rfl⟩, h⟩ := h
          rw [Nat.add_assoc, ← List.length_append, ← wrap_eq] at h
          rcases kind_cases tag with hkind | hkind <;> rw [hkind] at hfits hb h
          · rw [if_neg (by decide)] at h
            simp only [bind_eq_ok, ensure_eq_ok, pure_eq_ok, Prod.mk.injEq] at h
            obtain ⟨_, hsingle, rfl, rfl⟩ := h
            have hbytes : bytes payload = wrap payload 0x80 := if_neg hsingle
            rw [← hbytes] at hfits hb ⊢
            exact ⟨.string payload, Nat.le_add_left 1 depth, hfits, hb, rfl⟩
          · simp only [bind_eq_ok, pure_eq_ok, Prod.mk.injEq, if_true] at h
            obtain ⟨items, hread, rfl, rfl⟩ := h
            rw [wrap_eq, List.length_append, ← Nat.add_assoc] at hfits
            obtain ⟨ts, hheight, rfl, rfl⟩ :=
              (parseAll_eq_ok (fun _ _ _ _ => ih) (Nat.le_refl _) hfits).mp hread
            rw [Nat.add_assoc, ← List.length_append, ← wrap_eq] at hfits
            exact ⟨.list ts, Nat.succ_le_succ hheight, hfits, hb, rfl⟩
      · rintro ⟨t, hheight, hfits, hb, rfl⟩
        have hpos := List.length_pos_iff.mpr t.encode_ne_nil
        refine ⟨(), by omega, ?_⟩
        -- the tag before a payload is of its kind, and the payload is read back
        have hread {base : UInt8} {payload : List UInt8} (hbase : base = 0x80 ∨ base = 0xc0)
            (hwrap : t.encode = wrap payload base) : ¬tag < 0x80 ∧ kind tag = base ∧
              frame start tag b = .ok (start + (header payload.length base).length, payload, rest) := by
          rw [hwrap] at hb hfits
          have hlength := congrArg List.length (wrap_eq payload base)
          rw [List.length_append] at hlength
          obtain ⟨hlow, rfl⟩ := kind_of_wrap hbase (by omega) hb
          exact ⟨hlow, rfl, (frame_eq_ok hlow).mpr ⟨hfits, hb, rfl⟩⟩
        cases t with
        | string value =>
          by_cases hsingle : value.length = 1 ∧ value.all (· < 0x80)
          · obtain ⟨c, rfl⟩ := List.length_eq_one_iff.mp hsingle.1
            have hone : bytes [c] = [c] := if_pos hsingle
            rw [Tree.encode, hone, List.singleton_append] at hb
            obtain ⟨rfl, rfl⟩ := List.cons.inj hb
            rw [if_pos (by simpa using hsingle.2), Tree.item, hone]
            rfl
          · have hbytes : bytes value = wrap value 0x80 := if_neg hsingle
            obtain ⟨hlow, hkind, hframe⟩ := hread (.inl rfl) hbytes
            rw [if_neg hlow, hframe, ok_bind, hkind, Tree.item, hbytes, wrap_eq, List.length_append,
              Nat.add_assoc]
            exact bind_eq_ok.mpr ⟨(), ensure_of hsingle _, rfl⟩
        | list items =>
          obtain ⟨hlow, hkind, hframe⟩ := hread (.inr rfl) rfl
          rw [Tree.encode, list, wrap_eq, List.length_append, ← Nat.add_assoc] at hfits
          rw [if_neg hlow, hframe, ok_bind, hkind, Tree.item, wrap_eq, List.length_append,
            ← Nat.add_assoc]
          exact bind_eq_ok.mpr ⟨_, (parseAll_eq_ok (fun _ _ _ _ => ih) (Nat.le_refl _) hfits).mpr
            ⟨items, Nat.le_of_succ_le_succ hheight, rfl, rfl⟩, rfl⟩

/-- **What is decoded is the encoding of a tree that is not too deep.** -/
theorem decode_eq_ok {raw : List UInt8} {x : Item} : decode raw = .ok x ↔
    ∃ t : Tree, t.height ≤ 9 ∧ raw.length < 2 ^ 64 ∧ raw = t.encode ∧ x = t.item 0 := by
  simp only [decode, bind_eq_ok, ensure_eq_ok, pure_eq_ok, Prod.exists, parse_eq_ok, Nat.zero_add]
  constructor
  · rintro ⟨x, rest, ⟨t, hheight, hfits, rfl, rfl⟩, _, rfl, rfl⟩
    exact ⟨t, hheight, by rwa [List.append_nil], List.append_nil _, rfl⟩
  · rintro ⟨t, hheight, hfits, rfl, rfl⟩
    exact ⟨_, [], ⟨t, hheight, hfits, (List.append_nil _).symm, rfl⟩, (), rfl, rfl⟩

end Library.Rlp
