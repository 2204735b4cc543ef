import Mathlib

/-!
# The console's font

`font8x16` of `kernel/font8x16.h`: a glyph is a number whose sixteen bytes are the
rows of the glyph, the top row first.
-/

namespace NarcOs

def font8x16 : List Nat := [
  0, 0, 0, 0, 0, 0, 0, 0, 0, 0, 0, 0, 0, 0, 0, 0, 0, 0, 0, 0, 0, 0, 0, 0, 0, 0, 0, 0, 0, 0, 0, 0, 0,
  0x00000010101010101000101000000000, 0x00000028282800000000000000000000, 0x0000000014247e2828fc485000000000,
  0x00000010385450701c14543810100000, 0x00000060909064186c12120c00000000, 0x0000001c202030304a4e643a00000000,
  0x00000010101000000000000000000000, 0x00000c0808101010101008080c000000, 0x00003010100808080808101030000000,
  0x00000010543838541000000000000000, 0x0000000000101010fe10101000000000, 0x00000000000000000000101020000000,
  0x00000000000000003800000000000000, 0x00000000000000000000101000000000, 0x00000002040408081010202040000000,
  0x0000003c2442424a4242243c00000000, 0x00000070101010101010107c00000000, 0x0000003c420202040810207e00000000,
  0x0000003c4202021c0202423c00000000, 0x0000000c0c143424447e040400000000, 0x0000007c40407c060202463c00000000,
  0x0000001c22405c664242263c00000000, 0x0000007e060404080810102000000000, 0x0000003c4242423c4242423c00000000,
  0x0000003c644242463a02443800000000, 0x00000000000010100000101000000000, 0x00000000000010100000101020000000,
  0x0000000000021c60601c020000000000, 0x000000000000007e007e000000000000, 0x00000000004038060638400000000000,
  0x0000001c22020c181000101000000000, 0x000000001c26424e52524e60201c0000, 0x0000001818182424243c424200000000,
  0x0000007c4242427c4242427c00000000, 0x0000001c224040404040221c00000000, 0x00000078444242424242447800000000,
  0x0000007e4040407e4040407e00000000, 0x0000007e4040407e4040404000000000, 0x0000001c224040464242221c00000000,
  0x000000424242427e4242424200000000, 0x0000007c101010101010107c00000000, 0x0000001c040404040404443800000000,
  0x0000004244485070484c444200000000, 0x00000040404040404040407e00000000, 0x0000004266665a5a5a42424200000000,
  0x000000626252525a4a4a464600000000, 0x0000003c244242424242243c00000000, 0x0000007c4242427c4040404000000000,
  0x0000003c244242424242263c04040000, 0x0000007c4242427c4442424100000000, 0x0000003c4240603c0202423c00000000,
  0x000000fe101010101010101000000000, 0x00000042424242424242423c00000000, 0x00000042422424242418181800000000,
  0x000000829292aaaaaa6c444400000000, 0x00000042242418181824244200000000, 0x00000082442828101010101000000000,
  0x0000007e060408181020607e00000000, 0x00001810101010101010101018000000, 0x00000040202010100808040402000000,
  0x00003010101010101010101030000000, 0x00000030488400000000000000000000, 0x0000000000000000000000000000fe00,
  0x00000010080000000000000000000000, 0x00000000003844043c44443c00000000, 0x00000040404078444444444478000000,
  0x00000000003864404040603c00000000, 0x0000000404043c44444444443c000000, 0x00000000003864447c40443800000000,
  0x0000000c10107c101010101010000000, 0x00000000003c44444444443c04241800, 0x00000040404058644444444444000000,
  0x0000001000007010101010107c000000, 0x00000800003808080808080808083000, 0x00000040404044485060504844000000,
  0x0000007010101010101010100c000000, 0x00000000007c54545454545400000000, 0x00000000005864444444444400000000,
  0x00000000003844444444443800000000, 0x00000000007844444444447840404000, 0x00000000003c44444444443c04040400,
  0x00000000003c32202020202000000000, 0x00000000003844403804443800000000, 0x00000010107c10101010101c00000000,
  0x00000000004444444444443c00000000, 0x00000000004444282828101000000000, 0x0000000000828254546c282800000000,
  0x00000000004428281028284400000000, 0x00000000004444282828301010206000, 0x00000000007c04081020407c00000000,
  0x00001c1010101060101010101c000000, 0x00001010101010101010101010100000, 0x000070101010100c1010101070000000,
  0x00000000000000700e00000000000000, 0x000000007e4242424242424242427e00]

/-- `font8x16[c][y]` -/
def fontRow (c : UInt8) (y : Nat) : Nat := (font8x16.getD c.toNat 0 >>> (8 * (15 - y))) % 256

theorem fontRow_space (y : Nat) : fontRow 32 y = 0 := by
  have h : font8x16.getD 32 0 = 0 := rfl
  change (font8x16.getD 32 0 >>> (8 * (15 - y))) % 256 = 0
  rw [h, Nat.zero_shiftRight]

end NarcOs
