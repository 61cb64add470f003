import Palmira.Readers.Minizip

/-!
# Damaged entries

`unzReadCurrentFile` answers below zero when an entry cannot be read on, and
`unzCloseCurrentFile` when its checksum is wrong. `minizip::Read` takes the first for
the end of the entry and does not look at the second.
-/

namespace Palmira.Minizip

/-- An entry as it was packed, and how reading it ends: the value of the last call of
`unzReadCurrentFile`, never above zero, and that of `unzCloseCurrentFile`. -/
structure Member where
  name : Bytes
  content : Bytes
  last : ℤ
  close : ℤ

mutual

/-- A byte string that is no zip, or one that is. -/
inductive Stored where
  | text (content : Bytes)
  | zip (content : Bytes) (members : Members)

/-- The entries of a zip, each with what can be read of it. -/
inductive Members where
  | nil
  | cons (member : Member) (given : Stored) (rest : Members)

end

def Stored.content : Stored → Bytes
  | .text content => content
  | .zip content _ => content

mutual

/-- What `Read` gets to see. -/
def Stored.archive : Stored → Archive
  | .text content => .text content
  | .zip content members => .zip content members.entries

def Members.entries : Members → Entries
  | .nil => .nil
  | .cons member given rest => .cons member.name given.archive rest.entries

end

mutual

/-- `minizip` finds this tree: it gives a part of each entry in chunks, all of it when the last call
answers zero. -/
def Stored.FoundBy (z : Unzip) : Stored → Prop
  | .text content => z.unzOpen2 content = none
  | .zip content members =>
      content ≠ [] ∧ ∃ stored, z.unzOpen2 content = some stored ∧ members.FoundBy z stored

def Members.FoundBy (z : Unzip) : Members → List Entry → Prop
  | .nil, stored => stored = []
  | .cons member given rest, stored => ∃ chunks others,
      stored = ⟨member.name, true, true, chunks ++ [[]]⟩ :: others ∧ [] ∉ chunks ∧
        chunks.flatten = given.content ∧ given.content <+: member.content ∧ member.last ≤ 0 ∧
        (member.last = 0 → given.content = member.content) ∧ given.FoundBy z ∧
        rest.FoundBy z others

end

/-! ## What is to be delivered -/

/-- Reading the entry and closing it went without an error. -/
def undamaged (member : Member) (_given : Bytes) : Bool := member.last = 0 ∧ member.close = 0

/-- All of the entry was read, whatever came of its checksum. -/
def whole (member : Member) (given : Bytes) : Bool := given = member.content

mutual

/-- The non-empty documents in the entries that are kept, in depth-first order. -/
def Stored.delivered (keep : Member → Bytes → Bool) : Stored → List Bytes
  | .text content => if content = [] then [] else [content]
  | .zip _ members => members.delivered keep

def Members.delivered (keep : Member → Bytes → Bool) : Members → List Bytes
  | .nil => []
  | .cons member given rest =>
      (if keep member given.content = true then given.delivered keep else []) ++
        rest.delivered keep

end

mutual

/-- An entry that is not kept gives no document: nothing can be read of it, or an archive without
one. -/
def Stored.Clean (keep : Member → Bytes → Bool) : Stored → Prop
  | .text _ => True
  | .zip _ members => members.Clean keep

def Members.Clean (keep : Member → Bytes → Bool) : Members → Prop
  | .nil => True
  | .cons member given rest =>
      (if keep member given.content = true then given.Clean keep
        else given.delivered (fun _ _ => true) = []) ∧ rest.Clean keep

end

/-- `Read` calls `fnTxt` with the documents of the entries that are kept, and with no other. -/
def Delivers (z : Unzip) (tree : Stored) (names : List Bytes) (keep : Member → Bytes → Bool) :
    Prop :=
  ∃ texts, Reads z tree.content names (.ok texts) ∧ texts.map Text.input = tree.delivered keep

/-! ## What `Read` delivers -/

section Delivered

variable {keep : Member → Bytes → Bool}

@[simp] theorem Stored.archive_content (tree : Stored) : tree.archive.content = tree.content := by
  cases tree <;> rfl

theorem given_of_chunks (name : Bytes) {chunks : List Bytes} (hchunks : [] ∉ chunks) :
    (⟨name, true, true, chunks ++ [[]]⟩ : Entry).given = chunks.flatten := by
  have hall : ∀ chunk ∈ chunks, decide (chunk ≠ []) = true := fun chunk hchunk =>
    decide_eq_true fun h => hchunks (h ▸ hchunk)
  change ((chunks ++ [[]]).takeWhile (· ≠ [])).flatten = chunks.flatten
  rw [List.takeWhile_append_of_pos hall, List.takeWhile_cons_of_neg (by simp), List.append_nil]

mutual

theorem Stored.FoundBy.readBy {z : Unzip} : (tree : Stored) → tree.FoundBy z →
    tree.archive.ReadBy z
  | .text _, hfound => hfound
  | .zip _ members, hfound => by
      obtain ⟨hroot, stored, hopen, hmembers⟩ := hfound
      exact ⟨hroot, stored, hopen, Members.FoundBy.readBy members stored hmembers⟩

theorem Members.FoundBy.readBy {z : Unzip} : (members : Members) → (stored : List Entry) →
    members.FoundBy z stored → members.entries.ReadBy z stored
  | .nil, _, hfound => hfound
  | .cons member given rest, _, hfound => by
      obtain ⟨chunks, others, rfl, hchunks, hcontent, -, -, -, hgiven, hrest⟩ := hfound
      have hread := (given_of_chunks member.name hchunks).trans hcontent
      exact ⟨_, others, rfl, rfl, hread.trans given.archive_content.symm,
        Stored.FoundBy.readBy given hgiven, Members.FoundBy.readBy rest others hrest⟩

end

mutual

/-- What is called is what all entries give. -/
theorem Stored.leaves_archive (names : List Bytes) : (tree : Stored) →
    (tree.archive.leaves names).map Text.input = tree.delivered fun _ _ => true
  | .text content => by
      simp only [Stored.archive, Archive.leaves, Stored.delivered]
      split <;> rfl
  | .zip _ members => Members.leaves_entries names members

theorem Members.leaves_entries (names : List Bytes) : (members : Members) →
    (members.entries.leaves names).map Text.input = members.delivered fun _ _ => true
  | .nil => rfl
  | .cons member given rest => by
      rw [Members.entries, Entries.leaves, List.map_append, Stored.leaves_archive,
        Members.leaves_entries, Members.delivered, if_pos rfl]

end

mutual

theorem Stored.delivered_sublist : (tree : Stored) →
    (tree.delivered keep).Sublist (tree.delivered fun _ _ => true)
  | .text _ => List.Sublist.refl _
  | .zip _ members => Members.delivered_sublist members

theorem Members.delivered_sublist : (members : Members) →
    (members.delivered keep).Sublist (members.delivered fun _ _ => true)
  | .nil => List.Sublist.refl _
  | .cons member given rest => by
      simp only [Members.delivered, if_true]
      apply List.Sublist.append _ (Members.delivered_sublist rest)
      split
      · exact Stored.delivered_sublist given
      · exact List.nil_sublist _

end

/-- Two parts that are put together to the whole are each the whole part. -/
theorem append_eq_iff_of_sublist {as as' bs bs' : List Bytes} (ha : as.Sublist as')
    (hb : bs.Sublist bs') : as ++ bs = as' ++ bs' ↔ as = as' ∧ bs = bs' := by
  constructor
  · intro heq
    have hlength := congrArg List.length heq
    rw [List.length_append, List.length_append] at hlength
    have hle := ha.length_le
    have hle' := hb.length_le
    exact ⟨ha.eq_of_length (by omega), hb.eq_of_length (by omega)⟩
  · rintro ⟨rfl, rfl⟩
    rfl

mutual

theorem Stored.delivered_eq_iff : (tree : Stored) →
    ((tree.delivered fun _ _ => true) = tree.delivered keep ↔ tree.Clean keep)
  | .text _ => iff_of_true rfl trivial
  | .zip _ members => Members.delivered_eq_iff members

theorem Members.delivered_eq_iff : (members : Members) →
    ((members.delivered fun _ _ => true) = members.delivered keep ↔ members.Clean keep)
  | .nil => iff_of_true rfl trivial
  | .cons member given rest => by
      simp only [Members.delivered, Members.Clean, if_true]
      rw [← Members.delivered_eq_iff rest, eq_comm]
      split
      · rw [append_eq_iff_of_sublist given.delivered_sublist rest.delivered_sublist, eq_comm,
          Stored.delivered_eq_iff given, eq_comm (a := rest.delivered keep)]
      · rw [append_eq_iff_of_sublist (List.nil_sublist _) rest.delivered_sublist, eq_comm,
          eq_comm (a := rest.delivered keep)]

end

theorem delivers_iff {z : Unzip} {tree : Stored} {names : List Bytes} (hfound : tree.FoundBy z)
    (hroot : tree.content ≠ []) :
    Delivers z tree names keep ↔ tree.archive.Terminated ∧ tree.Clean keep := by
  have hread := Stored.FoundBy.readBy tree hfound
  rw [← tree.archive_content] at hroot
  have hcalls : tree.archive.Terminated → Reads z tree.content names
      (.ok ((tree.archive.leaves []).map (Text.below names))) := fun hterminated =>
    tree.archive_content ▸ tree.archive.reads hread hterminated hroot names
  have hinputs : ((tree.archive.leaves []).map (Text.below names)).map Text.input =
      tree.delivered fun _ _ => true := by
    rw [List.map_map, ← Stored.leaves_archive []]
    rfl
  rw [← Stored.delivered_eq_iff tree]
  constructor
  · intro ⟨texts, ⟨fuel, hrun⟩, htexts⟩
    rw [← tree.archive_content] at hrun
    have hterminated := tree.archive.terminated_of_run hread hroot fuel names texts hrun
    rw [tree.archive_content] at hrun
    have hsame := (hcalls hterminated).unique (body_monotone z true) ⟨fuel, hrun⟩
    rw [← Except.ok.inj hsame, hinputs] at htexts
    exact ⟨hterminated, htexts⟩
  · intro ⟨hterminated, heq⟩
    exact ⟨_, hcalls hterminated, hinputs.trans heq⟩

end Delivered

/-- Of every tree: no damaged entry is delivered and every other one is, exactly when no damaged
entry gives a document; and no part of an entry is delivered and every whole one is, exactly when no
entry that was read in part gives one. Both need names that end in the array. -/
theorem damage_kept_out_iff (z : Unzip) (tree : Stored) (names : List Bytes)
    (hfound : tree.FoundBy z) (hroot : tree.content ≠ []) :
    (Delivers z tree names undamaged ↔ tree.archive.Terminated ∧ tree.Clean undamaged) ∧
      (Delivers z tree names whole ↔ tree.archive.Terminated ∧ tree.Clean whole) :=
  ⟨delivers_iff hfound hroot, delivers_iff hfound hroot⟩

/-! ## An entry that breaks off -/

/-- A stored block of 0x401 bytes, and a block of a type there is not. -/
def brokenData : Bytes := [0x00, 0x01, 0x04, 0xFE, 0xFB] ++ List.replicate 0x401 0x78 ++ [0x07]

/-- The header fields of an entry of 0x500 letters x, deflated to that. -/
def brokenFields : Bytes :=
  [le16 20, le16 0, le16 8, le16 0, le16 33, le32 0xef1182de, le32 brokenData.length, le32 0x500,
    le16 1, le16 0].flatten

/-- A zip with this entry, under the name a. -/
def brokenZip : Bytes :=
  0x50 :: 0x4b :: ([3, 4] ++ brokenFields ++ [0x61] ++ brokenData ++
    [0x50, 0x4b, 1, 2] ++ le16 20 ++ brokenFields ++
    [le16 0, le16 0, le16 0, le32 0, le32 0].flatten ++ [0x61] ++ [0x50, 0x4b, 5, 6] ++
    [le16 0, le16 0, le16 1, le16 1, le32 47, le32 (31 + brokenData.length), le16 0].flatten)

/-- The first call fills its buffer, the second one runs into the block. -/
def opensBrokenZip : Unzip where
  unzOpen2 input :=
    if input = brokenZip then some [⟨[0x61], true, true, [List.replicate 0x400 0x78, []]⟩]
    else none

def brokenTree : Stored :=
  .zip brokenZip (.cons ⟨[0x61], List.replicate 0x500 0x78, -3, 0⟩
    (.text (List.replicate 0x400 0x78)) .nil)

theorem brokenTree_found : brokenTree.FoundBy opensBrokenZip := by
  have hsplit : List.replicate 0x400 (0x78 : UInt8) ++ List.replicate 0x100 0x78 =
      List.replicate 0x500 0x78 := List.replicate_append_replicate
  have hx : List.replicate 0x400 0x78 ≠ brokenZip := by
    rw [List.replicate_succ]
    intro h
    exact absurd (List.cons.inj h).1 (by decide)
  have htext : opensBrokenZip.unzOpen2 (List.replicate 0x400 0x78) = none := by
    simp only [opensBrokenZip, if_neg hx]
  have hopen : opensBrokenZip.unzOpen2 brokenZip =
      some [⟨[0x61], true, true, [List.replicate 0x400 0x78, []]⟩] := by
    simp only [opensBrokenZip, if_true]
  refine ⟨List.cons_ne_nil _ _, _, hopen, [List.replicate 0x400 0x78], [], rfl, ?_, ?_, ?_,
    by decide, nofun, htext, rfl⟩
  · rw [List.mem_singleton, List.replicate_succ]
    exact (List.cons_ne_nil _ _).symm
  · exact List.flatten_singleton
  · exact ⟨List.replicate 0x100 0x78, hsplit⟩

/-- 0x400 of the 0x500 letters are delivered as a document. -/
theorem broken_entry_delivered :
    Reads opensBrokenZip brokenZip [] (.ok [⟨List.replicate 0x400 0x78, [[0x61]]⟩]) ∧
      ¬ Delivers opensBrokenZip brokenTree [] undamaged ∧
      ¬ Delivers opensBrokenZip brokenTree [] whole := by
  have hread := Stored.FoundBy.readBy brokenTree brokenTree_found
  have hshort : Terminated [0x61] := .inl (by decide)
  have hcall : Reads opensBrokenZip brokenZip []
      (.ok [⟨List.replicate 0x400 0x78, [[0x61]]⟩]) :=
    brokenTree.archive.reads hread ⟨fun _ => hshort, trivial, trivial⟩ (List.cons_ne_nil _ _) []
  have hnone : ∀ keep : Member → Bytes → Bool, brokenTree.delivered keep = [] →
      ¬ Delivers opensBrokenZip brokenTree [] keep := by
    intro keep hkeep ⟨texts, hreads, htexts⟩
    rw [← Except.ok.inj (hcall.unique (body_monotone _ true) hreads), hkeep] at htexts
    cases htexts
  refine ⟨hcall, hnone _ rfl, hnone _ ?_⟩
  have hpart : whole ⟨[0x61], List.replicate 0x500 0x78, -3, 0⟩ (List.replicate 0x400 0x78) =
      false := by
    apply decide_eq_false
    intro h
    have hlength := congrArg List.length h
    rw [List.length_replicate, List.length_replicate] at hlength
    cases hlength
  change (if whole _ (List.replicate 0x400 0x78) = true then _ else []) ++ [] = []
  rw [hpart]
  rfl

theorem damage_kept_out_iff_broken :
    (Delivers opensBrokenZip brokenTree [] undamaged ↔
        brokenTree.archive.Terminated ∧ brokenTree.Clean undamaged) ∧
      (Delivers opensBrokenZip brokenTree [] whole ↔
        brokenTree.archive.Terminated ∧ brokenTree.Clean whole) :=
  damage_kept_out_iff opensBrokenZip brokenTree [] brokenTree_found (List.cons_ne_nil _ _)

end Palmira.Minizip
