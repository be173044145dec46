import Mathlib.Algebra.Order.BigOperators.Group.List
import BmcCache.OnesComplement
import BmcCache.WriteReply

/-!
# The IP checksum of a reply

`compute_ip_checksum` adds the ten words of the header, folds the carries into the lower half once and complements.  The
fold can carry itself; that carry is lost.

* `hostWords`, `ipWords` — the words as the program reads them, and as they are on the wire;
* `Accepted` — a receiver's test, the one's-complement sum of all ten words;
* `FoldsOnce` — one fold is enough;
* `checksum_accepted_iff` — exactly then the header is accepted.
-/

namespace BmcCache

open ByteBuffer

def hostWords (hdr : Bytes) : List ℕ :=
  (List.range 10).map fun i => (hdr.getD (2 * i) 0).toNat + (hdr.getD (2 * i + 1) 0).toNat * 256

def ipWords (hdr : Bytes) : List ℕ := (List.range 10).map fun i => be16At hdr (2 * i)

/-- The test of a receiver: with all carries folded, the words add up to `0xFFFF`. -/
def Accepted (hdr : Bytes) : Prop := OnesComplement.sum 0xFFFF (ipWords hdr) = 0xFFFF

instance (hdr : Bytes) : Decidable (Accepted hdr) := inferInstanceAs (Decidable (_ = _))

/-- The carries of the sum of the nine other words can be added to its lower half without another carry. -/
def FoldsOnce (hdr : Bytes) : Prop :=
  (hostWords (overwrite hdr 10 [0, 0])).sum % 2 ^ 16 + (hostWords (overwrite hdr 10 [0, 0])).sum / 2 ^ 16 < 2 ^ 16

instance (hdr : Bytes) : Decidable (FoldsOnce hdr) := inferInstanceAs (Decidable (_ < _))

theorem ipWords_eq (hdr : Bytes) : ipWords hdr = (hostWords hdr).map (OnesComplement.swap 256) := by
  simp only [ipWords, hostWords, List.map_map]
  refine List.map_congr_left fun i _ => ?_
  have hlow := (hdr.getD (2 * i) 0).toNat_lt
  have hhigh := (hdr.getD (2 * i + 1) 0).toNat_lt
  simp only [be16At, Function.comp_apply, OnesComplement.swap]
  omega

theorem hostWords_lt (hdr : Bytes) : ∀ w ∈ hostWords hdr, w < 256 * 256 := by
  intro w hw
  obtain ⟨i, -, rfl⟩ := List.mem_map.mp hw
  have hlow := (hdr.getD (2 * i) 0).toNat_lt
  have hhigh := (hdr.getD (2 * i + 1) 0).toNat_lt
  omega

theorem accepted_iff (hdr : Bytes) :
    Accepted hdr ↔ 0 < (hostWords hdr).sum ∧ 0xFFFF ∣ (hostWords hdr).sum := by
  have hswap := OnesComplement.sum_swap_eq_top (by norm_num : 1 < 256) (hostWords_lt hdr)
  have htop := OnesComplement.sum_eq_top (by norm_num : 0 < 256 * 256 - 1)
    fun w hw => Nat.le_sub_one_of_lt (hostWords_lt hdr w hw)
  rw [Accepted, ipWords_eq]
  exact hswap.trans htop

theorem hostWords_sum_check {hdr : Bytes} (h : hdr.length = 20) (c : ℕ) (hc : c < 2 ^ 16) :
    (hostWords (overwrite hdr 10 (le16Bytes c))).sum = (hostWords (overwrite hdr 10 [0, 0])).sum + c := by
  match hdr, h with
  | [b0, b1, b2, b3, b4, b5, b6, b7, b8, b9, b10, b11, b12, b13, b14, b15, b16, b17, b18, b19], _ =>
    simp only [hostWords, overwrite, le16Bytes, List.range_succ]
    simp
    omega

theorem hostWords_sum_le {hdr : Bytes} (h : hdr.length = 20) :
    (hostWords (overwrite hdr 10 [0, 0])).sum ≤ 9 * 0xFFFF := by
  have hall := hostWords_sum_check h 0xFFFF (by norm_num)
  have hbound := List.sum_le_card_nsmul (hostWords (overwrite hdr 10 (le16Bytes 0xFFFF))) 0xFFFF
    fun w hw => Nat.le_of_lt_succ (hostWords_lt _ w hw)
  rw [show (hostWords (overwrite hdr 10 (le16Bytes 0xFFFF))).length = 10 by simp [hostWords],
    show (10 • 0xFFFF : ℕ) = 10 * 0xFFFF from rfl] at hbound
  omega

/-- **The IP checksum.**  When the result of `compute_ip_checksum` is in the check field, a receiver accepts the header
exactly if one fold was enough. -/
theorem checksum_accepted_iff (hdr : Bytes) (h : hdr.length = 20) :
    Accepted (overwrite hdr 10 (le16Bytes (computeIpChecksum hdr))) ↔ FoldsOnce hdr := by
  have hle := hostWords_sum_le h
  have hcheck : computeIpChecksum hdr = u16 (2 ^ 32 - 1 - ((hostWords (overwrite hdr 10 [0, 0])).sum % 2 ^ 16
      + (hostWords (overwrite hdr 10 [0, 0])).sum / 2 ^ 16)) := rfl
  have hlt : computeIpChecksum hdr < 2 ^ 16 := by
    rw [hcheck, u16]
    exact Nat.mod_lt _ (by norm_num)
  rw [accepted_iff, hostWords_sum_check h _ hlt, hcheck, FoldsOnce, u16]
  generalize (hostWords (overwrite hdr 10 [0, 0])).sum = total at hle ⊢
  have hsplit := Nat.div_add_mod total (2 ^ 16)
  have hlow := Nat.mod_lt total (show 0 < 2 ^ 16 by norm_num)
  generalize total / 2 ^ 16 = high at *
  generalize total % 2 ^ 16 = low at *
  by_cases hfold : low + high < 2 ^ 16
  · have hsum : total + (2 ^ 32 - 1 - (low + high)) % 2 ^ 16 = 0xFFFF * (high + 1) := by omega
    exact iff_of_true ⟨by omega, ⟨high + 1, hsum⟩⟩ hfold
  · -- the complement is one too large
    have hsum : total + (2 ^ 32 - 1 - (low + high)) % 2 ^ 16 = 0xFFFF * (high + 2) + 1 := by omega
    refine iff_of_false (fun haccepted => ?_) hfold
    rw [hsum] at haccepted
    omega

/-- The header of a reply of 64 bytes from 192.168.0.1 to 192.168.0.2. -/
def replyIpHeader (id : ℕ) : Bytes :=
  [0x45, 0, 0, 0x40] ++ le16Bytes id ++ [0x40, 0, 0x40, 0x11, 0, 0, 192, 168, 0, 1, 192, 168, 0, 2]

theorem checksum_accepted_reply :
    Accepted (overwrite (replyIpHeader 0x1234) 10 (le16Bytes (computeIpChecksum (replyIpHeader 0x1234)))) :=
  (checksum_accepted_iff (replyIpHeader 0x1234) rfl).mpr (by decide +kernel)

/-- The carry that is lost: the words of this header add up to `0x1FFFF`. -/
theorem checksum_rejected :
    ¬Accepted (overwrite (replyIpHeader 0x59ba) 10 (le16Bytes (computeIpChecksum (replyIpHeader 0x59ba)))) := by
  decide +kernel

end BmcCache
