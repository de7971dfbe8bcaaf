import Pico2wTfm.Support.Bytes

/-!
# Models — MnistValidQ

`models/mnist_valid_q.h`, the model that is shipped: a header of 64 bytes and six layers, three
convolutions, an average, a fully connected layer and a softmax.
-/

namespace TinyMaix
open Bytes

/-- The bytes of `mdl_data`. -/
def mdlBytes : List Nat := [
  77, 65, 73, 88, 0, 1, 1, 0, 1, 0, 6, 0, 184, 5, 0, 0, 0, 0, 0, 0,
  3, 0, 28, 0, 28, 0, 1, 0, 1, 0, 1, 0, 1, 0, 10, 0, 0, 0, 0, 0,
  0, 0, 0, 0, 0, 0, 0, 0, 0, 0, 0, 0, 0, 0, 0, 0, 0, 0, 0, 0,
  0, 0, 0, 0, 0, 0, 0, 0, 152, 0, 0, 0, 0, 0, 0, 0, 16, 3, 0, 0,
  3, 0, 28, 0, 28, 0, 1, 0, 3, 0, 13, 0, 13, 0, 4, 0, 129, 128, 128, 59,
  128, 255, 255, 255, 49, 233, 132, 60, 128, 255, 255, 255, 3, 3, 2, 2, 1, 1, 1, 0,
  0, 0, 0, 0, 0, 0, 0, 0, 0, 0, 0, 0, 80, 0, 0, 0, 96, 0, 0, 0,
  136, 0, 0, 0, 125, 119, 74, 60, 133, 173, 135, 60, 38, 146, 197, 59, 185, 201, 72, 60,
  47, 94, 91, 70, 20, 192, 176, 129, 200, 50, 10, 216, 111, 9, 129, 39, 246, 214, 127, 121,
  80, 249, 22, 43, 43, 94, 96, 243, 133, 153, 122, 10, 129, 103, 101, 25, 0, 0, 0, 0,
  148, 251, 255, 255, 148, 252, 255, 255, 148, 65, 1, 0, 171, 250, 255, 255, 0, 0, 0, 0,
  176, 1, 0, 0, 16, 3, 0, 0, 0, 0, 0, 0, 3, 0, 13, 0, 13, 0, 4, 0,
  3, 0, 6, 0, 6, 0, 8, 0, 49, 233, 132, 60, 128, 255, 255, 255, 160, 42, 132, 60,
  128, 255, 255, 255, 3, 3, 2, 2, 1, 1, 1, 0, 0, 0, 0, 0, 0, 0, 0, 0,
  0, 0, 0, 0, 80, 0, 0, 0, 112, 0, 0, 0, 144, 1, 0, 0, 182, 224, 138, 59,
  224, 168, 54, 59, 80, 61, 201, 59, 62, 79, 145, 59, 136, 158, 87, 59, 34, 168, 108, 59,
  31, 37, 159, 59, 242, 64, 113, 59, 241, 13, 40, 62, 113, 62, 168, 218, 239, 173, 61, 44,
  129, 181, 204, 15, 242, 223, 220, 220, 191, 159, 209, 233, 234, 233, 208, 195, 193, 153, 242, 83,
  72, 232, 27, 52, 221, 195, 186, 175, 129, 219, 172, 177, 235, 43, 19, 9, 24, 28, 32, 47,
  52, 32, 86, 70, 61, 18, 214, 219, 212, 251, 0, 62, 91, 63, 72, 93, 51, 85, 63, 16,
  129, 192, 211, 214, 147, 191, 213, 215, 202, 201, 242, 27, 2, 36, 248, 27, 249, 247, 223, 248,
  7, 255, 80, 28, 230, 184, 199, 26, 210, 206, 12, 9, 17, 225, 246, 14, 31, 47, 32, 250,
  46, 43, 199, 248, 14, 73, 71, 25, 43, 17, 247, 55, 6, 233, 185, 185, 231, 127, 66, 20,
  161, 244, 41, 209, 213, 7, 249, 252, 12, 27, 47, 47, 37, 30, 7, 2, 235, 221, 8, 168,
  180, 43, 29, 228, 22, 49, 22, 31, 247, 92, 23, 224, 10, 21, 8, 37, 164, 217, 26, 25,
  249, 247, 249, 141, 169, 203, 129, 192, 236, 24, 81, 196, 12, 64, 12, 101, 36, 205, 205, 205,
  135, 129, 205, 194, 159, 228, 117, 82, 248, 8, 8, 12, 142, 138, 144, 58, 28, 3, 119, 59,
  241, 69, 75, 6, 72, 65, 16, 26, 5, 254, 0, 255, 234, 172, 129, 173, 218, 182, 203, 19,
  239, 234, 213, 200, 179, 15, 253, 244, 250, 254, 13, 4, 75, 76, 28, 75, 68, 9, 56, 51,
  176, 210, 23, 141, 175, 230, 218, 203, 221, 46, 15, 4, 60, 127, 61, 36, 83, 50, 176, 199,
  225, 241, 45, 19, 231, 77, 36, 161, 216, 241, 177, 131, 208, 197, 192, 226, 36, 31, 255, 255,
  222, 209, 0, 0, 87, 200, 254, 255, 83, 204, 0, 0, 243, 118, 255, 255, 153, 252, 255, 255,
  160, 18, 0, 0, 94, 27, 255, 255, 0, 0, 0, 0, 80, 5, 0, 0, 0, 0, 0, 0,
  120, 5, 0, 0, 3, 0, 6, 0, 6, 0, 8, 0, 3, 0, 2, 0, 2, 0, 16, 0,
  160, 42, 132, 60, 128, 255, 255, 255, 5, 9, 104, 61, 128, 255, 255, 255, 3, 3, 2, 2,
  1, 1, 1, 0, 0, 0, 0, 0, 0, 0, 0, 0, 0, 0, 0, 0, 80, 0, 0, 0,
  144, 0, 0, 0, 16, 5, 0, 0, 227, 147, 173, 60, 97, 150, 104, 60, 113, 217, 150, 60,
  202, 161, 79, 60, 123, 155, 109, 60, 53, 148, 164, 60, 193, 244, 161, 60, 54, 230, 131, 60,
  147, 212, 69, 60, 22, 130, 95, 60, 57, 248, 86, 60, 139, 240, 170, 60, 104, 57, 102, 60,
  88, 30, 163, 60, 216, 27, 134, 60, 56, 173, 154, 60, 251, 248, 73, 153, 251, 214, 130, 255,
  7, 223, 253, 22, 73, 40, 253, 3, 16, 16, 14, 19, 254, 25, 49, 35, 13, 129, 165, 1,
  222, 251, 24, 248, 202, 246, 225, 242, 20, 249, 255, 61, 73, 31, 45, 248, 4, 66, 5, 19,
  241, 27, 3, 42, 251, 23, 222, 237, 251, 230, 246, 200, 22, 5, 213, 50, 67, 16, 19, 56,
  64, 233, 5, 41, 164, 174, 45, 171, 161, 5, 202, 129, 74, 208, 186, 229, 61, 200, 188, 6,
  235, 43, 50, 249, 18, 64, 46, 204, 16, 228, 4, 94, 88, 3, 47, 26, 51, 210, 245, 244,
  17, 44, 8, 253, 221, 23, 17, 236, 72, 130, 242, 62, 228, 34, 17, 42, 200, 14, 42, 12,
  83, 176, 75, 10, 203, 9, 249, 66, 71, 9, 106, 48, 226, 252, 2, 187, 72, 10, 244, 220,
  127, 214, 157, 253, 176, 7, 18, 97, 52, 17, 206, 68, 192, 253, 13, 25, 41, 207, 251, 205,
  224, 237, 174, 222, 233, 247, 34, 25, 17, 233, 25, 24, 208, 82, 23, 218, 31, 180, 16, 35,
  54, 239, 8, 221, 194, 232, 48, 211, 8, 35, 2, 36, 153, 29, 237, 18, 3, 17, 238, 229,
  220, 242, 19, 10, 38, 26, 242, 2, 248, 252, 203, 132, 92, 237, 29, 153, 242, 87, 62, 243,
  138, 214, 214, 193, 22, 5, 129, 0, 253, 146, 217, 54, 231, 37, 23, 232, 5, 25, 51, 13,
  72, 172, 223, 21, 233, 245, 189, 247, 240, 49, 114, 35, 22, 101, 226, 181, 244, 13, 234, 188,
  243, 59, 90, 223, 145, 16, 233, 247, 32, 178, 251, 233, 252, 15, 182, 59, 4, 4, 27, 37,
  149, 198, 213, 250, 161, 144, 222, 185, 139, 57, 232, 193, 9, 249, 5, 29, 27, 15, 57, 255,
  213, 70, 247, 41, 122, 106, 250, 247, 8, 61, 175, 7, 86, 65, 2, 215, 236, 231, 1, 224,
  209, 185, 193, 148, 212, 235, 202, 221, 214, 178, 225, 225, 12, 252, 56, 17, 1, 234, 221, 35,
  129, 228, 16, 255, 0, 32, 26, 199, 244, 59, 249, 229, 129, 231, 18, 224, 235, 7, 14, 55,
  246, 54, 246, 237, 39, 9, 56, 12, 13, 233, 20, 238, 222, 22, 30, 44, 34, 34, 227, 251,
  20, 69, 8, 242, 199, 248, 249, 244, 19, 219, 222, 16, 33, 221, 4, 6, 34, 15, 26, 35,
  24, 239, 236, 0, 222, 217, 196, 207, 11, 240, 254, 55, 242, 238, 244, 76, 72, 236, 189, 39,
  251, 196, 234, 9, 41, 0, 12, 42, 46, 220, 248, 3, 209, 179, 22, 4, 129, 211, 9, 247,
  211, 250, 245, 211, 224, 224, 198, 255, 25, 246, 47, 1, 247, 10, 38, 2, 245, 44, 17, 11,
  34, 255, 252, 6, 221, 253, 22, 217, 235, 79, 28, 224, 225, 227, 213, 21, 232, 246, 100, 41,
  61, 195, 35, 73, 225, 206, 219, 188, 222, 217, 227, 211, 176, 12, 34, 42, 44, 8, 13, 12,
  127, 246, 27, 211, 23, 224, 17, 246, 220, 253, 8, 202, 246, 40, 243, 227, 183, 49, 9, 32,
  20, 168, 24, 242, 227, 37, 59, 215, 26, 197, 184, 226, 242, 11, 248, 30, 185, 250, 63, 209,
  244, 205, 36, 222, 3, 65, 17, 8, 253, 230, 221, 252, 34, 20, 15, 7, 14, 37, 1, 216,
  2, 43, 249, 148, 220, 31, 250, 250, 124, 113, 239, 9, 77, 159, 185, 129, 232, 32, 230, 73,
  67, 22, 208, 73, 55, 223, 0, 242, 154, 21, 154, 143, 216, 211, 70, 208, 223, 200, 215, 240,
  36, 18, 255, 18, 249, 66, 21, 240, 16, 19, 174, 228, 51, 166, 32, 30, 178, 223, 36, 218,
  6, 113, 98, 42, 10, 44, 52, 204, 39, 235, 58, 98, 240, 20, 31, 86, 44, 204, 78, 54,
  72, 252, 144, 28, 13, 202, 29, 88, 22, 68, 26, 235, 136, 15, 33, 249, 251, 30, 90, 46,
  167, 13, 251, 16, 191, 209, 59, 231, 17, 43, 60, 221, 251, 8, 226, 162, 129, 210, 1, 195,
  230, 41, 174, 222, 51, 241, 5, 114, 41, 224, 7, 5, 193, 207, 183, 242, 236, 24, 81, 255,
  226, 61, 53, 12, 179, 6, 50, 165, 173, 34, 61, 235, 127, 69, 146, 137, 12, 199, 32, 18,
  59, 0, 82, 29, 8, 176, 163, 238, 220, 15, 28, 250, 43, 6, 250, 3, 4, 225, 210, 22,
  248, 222, 233, 57, 34, 48, 63, 54, 20, 31, 30, 203, 62, 43, 212, 167, 140, 241, 189, 208,
  224, 50, 33, 255, 70, 107, 245, 253, 81, 53, 200, 206, 167, 6, 239, 186, 248, 84, 30, 29,
  55, 39, 214, 210, 129, 246, 249, 224, 234, 196, 253, 250, 228, 76, 41, 251, 42, 214, 197, 198,
  12, 49, 36, 60, 252, 14, 2, 148, 240, 234, 64, 55, 34, 31, 206, 195, 226, 240, 42, 36,
  246, 237, 221, 213, 232, 42, 77, 89, 46, 22, 17, 28, 21, 45, 24, 197, 250, 253, 31, 248,
  211, 43, 235, 231, 246, 201, 220, 52, 248, 215, 238, 215, 28, 15, 29, 31, 155, 159, 216, 3,
  48, 58, 180, 2, 206, 26, 8, 67, 229, 248, 223, 40, 191, 216, 169, 146, 231, 190, 24, 233,
  110, 96, 151, 2, 42, 251, 207, 7, 11, 232, 220, 5, 45, 67, 60, 52, 71, 38, 9, 151,
  153, 242, 183, 21, 158, 180, 214, 139, 11, 186, 186, 234, 209, 2, 127, 56, 241, 48, 41, 51,
  76, 48, 82, 29, 1, 83, 50, 191, 201, 232, 8, 215, 201, 224, 249, 200, 42, 207, 226, 62,
  8, 23, 253, 5, 201, 238, 243, 211, 5, 26, 255, 22, 3, 16, 226, 61, 32, 238, 255, 249,
  10, 239, 9, 10, 2, 249, 253, 218, 222, 42, 9, 8, 7, 208, 2, 211, 127, 223, 238, 44,
  39, 255, 224, 246, 247, 15, 233, 242, 34, 251, 245, 255, 61, 83, 20, 235, 21, 254, 228, 6,
  220, 39, 17, 227, 27, 157, 216, 7, 236, 205, 176, 238, 248, 5, 13, 44, 36, 248, 223, 254,
  236, 27, 105, 230, 4, 219, 4, 59, 83, 27, 61, 32, 7, 0, 200, 219, 71, 215, 224, 216,
  199, 222, 220, 230, 25, 220, 247, 239, 20, 51, 243, 45, 238, 172, 225, 156, 251, 213, 254, 255,
  20, 45, 129, 252, 240, 3, 6, 204, 227, 30, 223, 162, 239, 237, 235, 33, 6, 60, 60, 127,
  67, 247, 22, 1, 55, 44, 77, 196, 249, 245, 16, 43, 251, 2, 209, 12, 8, 153, 43, 251,
  180, 252, 227, 213, 212, 55, 204, 4, 41, 250, 81, 22, 24, 25, 3, 1, 10, 231, 68, 191,
  1, 244, 247, 247, 229, 42, 111, 54, 31, 76, 3, 147, 219, 216, 224, 58, 24, 248, 8, 14,
  70, 7, 227, 206, 232, 88, 0, 0, 56, 39, 0, 0, 12, 226, 255, 255, 220, 106, 255, 255,
  126, 133, 254, 255, 118, 23, 0, 0, 235, 90, 255, 255, 70, 203, 255, 255, 182, 128, 0, 0,
  49, 175, 255, 255, 219, 54, 0, 0, 246, 239, 255, 255, 12, 130, 255, 255, 130, 226, 255, 255,
  85, 18, 255, 255, 241, 191, 0, 0, 1, 0, 0, 0, 48, 0, 0, 0, 120, 5, 0, 0,
  0, 0, 0, 0, 3, 0, 2, 0, 2, 0, 16, 0, 1, 0, 1, 0, 1, 0, 16, 0,
  5, 9, 104, 61, 128, 255, 255, 255, 33, 26, 183, 60, 128, 255, 255, 255, 2, 0, 0, 0,
  48, 1, 0, 0, 0, 0, 0, 0, 168, 5, 0, 0, 1, 0, 1, 0, 1, 0, 16, 0,
  1, 0, 1, 0, 1, 0, 10, 0, 33, 26, 183, 60, 128, 255, 255, 255, 253, 6, 27, 62,
  42, 0, 0, 0, 64, 0, 0, 0, 104, 0, 0, 0, 8, 1, 0, 0, 0, 0, 0, 0,
  233, 226, 175, 60, 0, 0, 0, 0, 0, 0, 0, 0, 0, 0, 0, 0, 0, 0, 0, 0,
  0, 0, 0, 0, 0, 0, 0, 0, 0, 0, 0, 0, 0, 0, 0, 0, 0, 0, 0, 0,
  42, 226, 41, 191, 11, 221, 9, 250, 66, 177, 249, 194, 70, 210, 15, 181, 52, 234, 179, 23,
  219, 251, 188, 15, 36, 223, 206, 249, 28, 224, 187, 56, 183, 226, 40, 12, 4, 147, 57, 227,
  245, 238, 60, 198, 55, 246, 182, 65, 202, 186, 215, 237, 195, 253, 58, 13, 210, 29, 7, 169,
  233, 6, 83, 37, 37, 215, 26, 49, 240, 14, 129, 25, 239, 192, 10, 45, 181, 51, 251, 230,
  220, 29, 3, 131, 226, 72, 217, 40, 35, 49, 52, 230, 235, 219, 221, 220, 231, 78, 192, 207,
  37, 60, 152, 181, 236, 204, 54, 195, 60, 8, 242, 227, 13, 247, 65, 68, 144, 31, 34, 7,
  203, 11, 184, 9, 254, 200, 191, 11, 189, 245, 6, 210, 77, 204, 7, 223, 31, 251, 249, 47,
  230, 162, 38, 0, 240, 54, 252, 233, 243, 235, 14, 176, 189, 63, 198, 28, 202, 77, 2, 244,
  188, 178, 255, 255, 26, 165, 255, 255, 197, 195, 255, 255, 28, 170, 255, 255, 68, 196, 255, 255,
  100, 204, 255, 255, 251, 156, 255, 255, 98, 195, 255, 255, 151, 189, 255, 255, 230, 201, 255, 255,
  3, 0, 1, 0, 48, 0, 0, 0, 168, 5, 0, 0, 0, 0, 0, 0, 1, 0, 1, 0,
  1, 0, 10, 0, 1, 0, 1, 0, 1, 0, 10, 0, 253, 6, 27, 62, 42, 0, 0, 0,
  0, 0, 128, 59, 128, 255, 255, 255]

/-- `mdl_data`. -/
def mdlData : List Byte := mdlBytes.map (BitVec.ofNat 8)

theorem length_mdlData : mdlData.length = 2408 := by
  rw [mdlData, List.length_map]
  decide +kernel

end TinyMaix
